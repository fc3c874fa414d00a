import UniqueSelector.Document.Traversal

/-!
# Iteration — walks that are taken one node at a time

An iterator hands out the node that comes next and moves on. Upward and sideways it holds the place
it stands at, which is none once the walk is over; downward it holds a stack, the next node on top.
Nothing bounds the number of steps.
-/

namespace UniqueSelector

/-- The place the iterator stands at, which it leaves along `link`. -/
def linkNext (link : NodeId → Option NodeId) (current : Option NodeId) :
    Option (NodeId × Option NodeId) :=
  current.map fun id => (id, link id)

namespace Document

/-- The stack of a walk that begins below `id`: the children, the first one on top. -/
def stackBelow (t : Document) (id : NodeId) : Array NodeId := (t.children id).reverse.toArray

/-- The node on top of the stack, for which its children are put there, the first one on top. -/
def descendantNext (t : Document) (stack : Array NodeId) : Option (NodeId × Array NodeId) :=
  stack.back?.map fun id => (id, stack.pop ++ t.stackBelow id)

end Document

end UniqueSelector
