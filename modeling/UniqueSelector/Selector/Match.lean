import UniqueSelector.Selector.Basic
import UniqueSelector.Document.Traversal
import UniqueSelector.Text.Numeral

/-!
# Match — when an element fits a selector

Simple selectors look at the element alone, structural pseudo-classes also at its place in the
document. The chain of a complex selector is followed outward from the subject; each step may have
several nodes to choose from, and one choice that fits to the end is enough.
-/

namespace UniqueSelector.Selector

/-! ## 1. Indexes -/

/-- The largest index that is compared at all. -/
def maxIndex : Nat := Nat.pow 2 63 - 1

/-- Whether `index` is `step * n + offset` for some natural number `n`. -/
def Nth.matches (nth : Nth) (index : Nat) : Bool :=
  if index ≤ maxIndex then
    if nth.step = 0 then (index : Int) == nth.offset
    else
      let distance := (index : Int) - nth.offset
      -- Division rounds toward zero; without a rest its result is exact.
      distance.tmod nth.step == 0 && decide (0 ≤ distance.tdiv nth.step)
  else false

/-! ## 2. Conditions on the element alone -/

/-- Whether a value stands to a text as the operator says; the empty text is in no value. -/
def AttributeOperator.holds (op : AttributeOperator) (value text : String) : Bool :=
  let v := value.toList
  let t := text.toList
  match op with
  | .equals => value == text
  | .includes => !text.isEmpty && (words value).any (· == text)
  | .dash => value == text || (t ++ ['-']).isPrefixOf v
  | .begins => !text.isEmpty && t.isPrefixOf v
  | .ends => !text.isEmpty && t.isSuffixOf v
  | .has => !text.isEmpty && hasPart t v

def AttributeTest.matches (test : AttributeTest) (e : Element) : Bool :=
  match test with
  | .present name => e.attrs.contains name
  | .compare name op text => ((e.attrs.get? name).map fun v => op.holds v text).getD false

/-- Whether the element fits by itself; a structural pseudo-class never does. -/
def Simple.matches (s : Simple) (e : Element) : Bool :=
  match s with
  | .type name => sameLetters e.tag name
  | .class name => e.hasClass name
  | .id name => e.id? == some name
  | .universal => true
  | .never => false
  | .attribute test => test.matches e
  | .pseudo _ => false

/-! ## 3. Conditions on the place -/

/-- A node without children but blanks and comments. -/
def isVacant (t : Document) (id : NodeId) : Bool :=
  (t.children id).all fun child =>
    match (t.get? child).map Node.kind with
    | some (.text data) => allBlank data
    | some (.comment _) => true
    | _ => false

/-- An element with the tag of `e`, up to the case of letters. -/
def sameType (t : Document) (e : Element) (id : NodeId) : Bool :=
  ((t.element? id).map fun other => sameLetters other.tag e.tag).getD false

/-- Whether the pseudo-class holds of the element `e` at `id` below `parent`. -/
def Pseudo.holdsBelow (p : Pseudo) (t : Document) (id : NodeId) (e : Element) (parent : NodeId) :
    Bool :=
  match p with
  | .root => t.documentElement == some id
  | .empty => isVacant t id
  | .nthChild nth => ((t.elementIndex id).map nth.matches).getD false
  | .nthLastChild nth => nth.matches ((t.followingSiblings id).countP t.isElement + 1)
  | .firstChild => (t.previousElement id).isNone
  | .lastChild => !(t.followingSiblings id).any t.isElement
  | .onlyChild => (t.elementChildren parent).length == 1
  | .firstOfType => !(t.precedingSiblings id).any (sameType t e)
  | .lastOfType => !(t.followingSiblings id).any (sameType t e)

/-- Whether the pseudo-class holds of the element `e` at `id`. Without a parent there are no
siblings to count, and only emptiness can hold. -/
def Pseudo.matches (p : Pseudo) (t : Document) (id : NodeId) (e : Element) : Bool :=
  match t.parent id with
  | some parent => p.holdsBelow t id e parent
  | none => p == .empty && isVacant t id

def Simple.matchesAt (s : Simple) (t : Document) (id : NodeId) (e : Element) : Bool :=
  match s with
  | .pseudo p => p.matches t id e
  | s => s.matches e

/-! ## 4. Compounds, chains and lists -/

/-- Whether the node is an element that meets every condition. -/
def Compound.matches (c : Compound) (t : Document) (id : NodeId) : Bool :=
  match t.element? id with
  | none => false
  | some e => c.all fun s => s.matchesAt t id e

/-- The nodes that a combinator leads to, the nearest first. -/
def Combinator.reach (k : Combinator) (t : Document) (id : NodeId) : List NodeId :=
  match k with
  | .descendant => t.ancestors id
  | .child => (t.parentElement id).toList
  | .nextSibling => (t.previousElement id).toList
  | .subsequentSibling => (t.precedingSiblings id).filter t.isElement

/-- Whether the chain can be followed outward from a node to its end. -/
def chainMatches (t : Document) : List (Combinator × Compound) → NodeId → Bool
  | [], _ => true
  -- The first node in reach need not be the right one, so all of them are tried.
  | (k, c) :: chain, id =>
    (k.reach t id).any fun other => c.matches t other && chainMatches t chain other

/-- Whether the node fits as the subject, and the chain from it. -/
def Complex.matches (s : Complex) (t : Document) (id : NodeId) : Bool :=
  s.subject.matches t id && chainMatches t s.chain id

def Selectors.matches (l : Selectors) (t : Document) (id : NodeId) : Bool :=
  l.any fun s => s.matches t id

end UniqueSelector.Selector
