import UniqueSelector.Document.Basic

/-!
# Traversal — walking through a document

Walks follow links upward, sideways or downward. A chain of links that never meets a node twice is
no longer than the document, so each walk takes at most that many steps.
-/

namespace UniqueSelector

/-- The places met by following `link` at most `steps` times from `id`, which is not listed. -/
def follow (link : NodeId → Option NodeId) : (steps : Nat) → (id : NodeId) → List NodeId
  | 0, _ => []
  | steps + 1, id =>
    match link id with
    | none => []
    | some other => other :: follow link steps other

namespace Document

/-! ## 1. Upward and sideways -/

/-- From the parent up to the topmost node. -/
def ancestors (t : Document) (id : NodeId) : List NodeId := follow t.parent t.size id

/-- From the neighbour on the left to the first child. -/
def precedingSiblings (t : Document) (id : NodeId) : List NodeId := follow t.prev t.size id

/-- From the neighbour on the right to the last child. -/
def followingSiblings (t : Document) (id : NodeId) : List NodeId := follow t.next t.size id

/-- Whether `ancestor` lies on the way up from `descendant`. -/
def isDescendantOf (t : Document) (descendant ancestor : NodeId) : Bool :=
  (t.ancestors descendant).contains ancestor

/-- The nearest element among the siblings on the left. -/
def previousElement (t : Document) (id : NodeId) : Option NodeId :=
  (t.precedingSiblings id).find? t.isElement

/-- The place among the elements below the same parent, counted from one; none without a parent. -/
def elementIndex (t : Document) (id : NodeId) : Option Nat :=
  (t.parent id).map fun _ => (t.precedingSiblings id).countP t.isElement + 1

/-! ## 2. Downward -/

/-- The nodes below `id` in at most `depth` generations, each before its own children. -/
def below (t : Document) : (depth : Nat) → (id : NodeId) → List NodeId
  | 0, _ => []
  | depth + 1, id => (t.children id).flatMap fun child => child :: below t depth child

/-- The nodes below `id` in tree order. -/
def descendants (t : Document) (id : NodeId) : List NodeId := t.below t.size id

/-- The elements below `id` in tree order. -/
def elementsBelow (t : Document) (id : NodeId) : List NodeId :=
  (t.descendants id).filter t.isElement

/-! ## 3. Landmarks -/

/-- The first element below the document node. -/
def documentElement (t : Document) : Option NodeId := (t.elementChildren root).head?

/-- The first child of the document element that is tagged as a body or a frame set. -/
def body (t : Document) : Option NodeId :=
  t.documentElement.bind fun html =>
    (t.elementChildren html).find? fun id =>
      ((t.element? id).map fun e => sameLetters e.tag "body" || sameLetters e.tag "frameset").getD
        false

end Document

end UniqueSelector
