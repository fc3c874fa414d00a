import UniqueSelector.Selector.ListReader
import UniqueSelector.Selector.Match

/-!
# Query — the elements below a node that fit a selector

A query has a scope, the document or an element. Its answers lie strictly below the scope and come
in tree order; the selector is matched against the whole document.
-/

namespace UniqueSelector

inductive QueryError where
  /-- The text is no selector. -/
  | invalidSelector (selector : String) (fault : Selector.Fault)
  /-- The scope is neither the document nor an element. -/
  | invalidScope (scope : NodeId)
deriving DecidableEq

def QueryError.message : QueryError → String
  | .invalidSelector selector fault =>
    "invalid selector " ++ quoted selector ++ ": " ++ fault.message
  | .invalidScope scope => "invalid query scope " ++ NodeId.shown scope

namespace Document

/-- The selectors and the nodes of a query; the text is looked at before the scope. -/
def prepare (t : Document) (selector : String) (scope : NodeId) :
    Except QueryError (Selector.Selectors × List NodeId) :=
  match Selector.parse selector with
  | .error fault => .error (.invalidSelector selector fault)
  | .ok l =>
    if scope = root ∨ t.isElement scope then .ok (l, t.descendants scope)
    else .error (.invalidScope scope)

/-- All elements below `scope` that fit, in tree order. -/
def queryAll (t : Document) (selector : String) (scope : NodeId) :
    Except QueryError (List NodeId) :=
  (t.prepare selector scope).map fun (l, nodes) => nodes.filter (l.matches t)

/-- The first element below `scope` that fits. -/
def queryOne (t : Document) (selector : String) (scope : NodeId) :
    Except QueryError (Option NodeId) :=
  (t.prepare selector scope).map fun (l, nodes) => nodes.find? (l.matches t)

end Document

end UniqueSelector
