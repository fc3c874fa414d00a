import UniqueSelector.Selector.Query

/-!
# Failure — why an element got no selector
-/

namespace UniqueSelector

/-- Why a search ended without a selector. -/
inductive Failure where
  | notAnElement (id : NodeId)
  /-- No query can find the element, because it is not below the scope. -/
  | outsideRoot (element root : NodeId)
  /-- Every mode was tried. -/
  | notFound
  /-- A selector made from the element itself found nothing. -/
  | noMatch (selector : String)
  | query (error : QueryError)
deriving DecidableEq

def Failure.message : Failure → String
  | .notAnElement id => "can't generate a CSS selector for non-element node " ++ NodeId.shown id
  | .outsideRoot element root =>
    "element " ++ NodeId.shown element ++ " is outside the query root " ++ NodeId.shown root
  | .notFound => "selector was not found"
  | .noMatch selector => "generated selector " ++ quoted selector ++ " matched no elements"
  | .query error => error.message

end UniqueSelector
