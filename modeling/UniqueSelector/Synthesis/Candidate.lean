import UniqueSelector.Selector.Escape
import UniqueSelector.Synthesis.Cost
import UniqueSelector.Synthesis.Settings

/-!
# Candidate — ways to name one element

An element can be named by its id, by an attribute with its value, by a class, by its tag, or, if
none of these is admitted, by the star. Each way can be narrowed to a place among the siblings.
-/

namespace UniqueSelector

/-- A piece of selector text for one element. -/
structure Candidate where
  fragment : String
  cost : Cost
  /-- How far the element is above the target. -/
  level : Nat := 0
deriving DecidableEq

namespace Candidate

/-- The same element, if it is the child number `index`. -/
def nthChild (c : Candidate) (index : Nat) : Candidate :=
  { c with
    fragment := c.fragment ++ ":nth-child(" ++ toString index ++ ")"
    cost := c.cost + Cost.forCounting }

/-- Whether counting among siblings can help: ids are unique already, and the document element has
no siblings. -/
def isDispensable (c : Candidate) : Bool :=
  c.fragment != "html" && c.fragment.toList.head? != some '#'

def any : Candidate := { fragment := "*", cost := Cost.forAny }

end Candidate

/-- `name` as a name in a selector, if it can be one at all: the empty text and the lone
hyphen cannot. -/
def writtenName? (name : String) : Option String :=
  let written := Selector.escapeName name
  if written.isEmpty || written == "-" then none else some written

namespace Element

/-- The element by its id. -/
def idCandidate? (e : Element) (s : Settings) : Option Candidate := do
  let id ← e.id?.filter s.acceptsId
  let name ← writtenName? id
  return { fragment := "#" ++ name, cost := Cost.forId }

/-- The element by one of its attributes. -/
def attributeCandidate? (s : Settings) (a : Attribute) : Option Candidate :=
  if s.acceptsAttribute a.name a.value then
    (writtenName? a.name).map fun name =>
      { fragment := "[" ++ name ++ "=\"" ++ Selector.escape (.string .double) a.value ++ "\"]"
        cost := Cost.forAttribute }
  else none

/-- The element by each of its attributes, in order. -/
def attributeCandidates (e : Element) (s : Settings) : List Candidate :=
  e.attrs.entries.filterMap (attributeCandidate? s)

/-- The element by one of its classes. -/
def classCandidate? (s : Settings) (name : String) : Option Candidate :=
  if s.acceptsClass name then
    (writtenName? name).map fun name => { fragment := "." ++ name, cost := Cost.forClass }
  else none

/-- The element by each of its classes, in order. -/
def classCandidates (e : Element) (s : Settings) : List Candidate :=
  e.classes.filterMap (classCandidate? s)

/-- The element by its tag, in lower case. -/
def tagCandidate? (e : Element) (s : Settings) : Option Candidate :=
  -- A tag from text begins with a letter, so it can always be a name.
  let tag := asciiLower e.tag
  if s.acceptsTag tag then some { fragment := Selector.escapeName tag, cost := Cost.forTag }
    else none

/-- Everything that names the element, the star if nothing else does. -/
def candidates (e : Element) (s : Settings) : List Candidate :=
  match (e.idCandidate? s).toList ++ e.attributeCandidates s ++ e.classCandidates s ++
      (e.tagCandidate? s).toList with
  | [] => [Candidate.any]
  | found => found

end Element

end UniqueSelector
