import UniqueSelector.Text.Ascii

/-!
# Selector — conditions on elements

A simple selector is one condition on an element; a compound selector joins several for one element.
A complex selector is a chain of compounds that reaches outward from its subject, and a list of
complex selectors holds where one of them does.
-/

namespace UniqueSelector.Selector

/-- The indexes `step * n + offset` for `n = 0, 1, 2, …`. -/
structure Nth where
  step : Int
  offset : Int
deriving DecidableEq

/-- How the value of an attribute compares with a given text. -/
inductive AttributeOperator where
  /-- The value is the text. -/
  | equals
  /-- One of the words of the value is the text. -/
  | includes
  /-- The value is the text, or begins with it and a hyphen. -/
  | dash
  /-- The value begins with the text. -/
  | begins
  /-- The value ends with the text. -/
  | ends
  /-- The value has the text in it. -/
  | has
deriving DecidableEq

def AttributeOperator.symbol : AttributeOperator → String
  | .equals => "="
  | .includes => "~="
  | .dash => "|="
  | .begins => "^="
  | .ends => "$="
  | .has => "*="

/-- A condition on one attribute. -/
inductive AttributeTest where
  | present (name : String)
  | compare (name : String) (op : AttributeOperator) (value : String)
deriving DecidableEq

/-- A condition on the place of an element in its document. -/
inductive Pseudo where
  | root
  | empty
  | nthChild (nth : Nth)
  | nthLastChild (nth : Nth)
  | firstChild
  | lastChild
  | onlyChild
  | firstOfType
  | lastOfType
deriving DecidableEq

/-- One condition on an element. -/
inductive Simple where
  | type (name : String)
  | class (name : String)
  | id (name : String)
  | universal
  /-- A condition that has no meaning in a document that stands still. -/
  | never
  | attribute (test : AttributeTest)
  | pseudo (p : Pseudo)
deriving DecidableEq

/-- Conditions that hold together of one element. -/
abbrev Compound := List Simple

/-- How an element stands to the next one outward. -/
inductive Combinator where
  | descendant
  | child
  | nextSibling
  | subsequentSibling
deriving DecidableEq

def Combinator.symbol : Combinator → String
  | .descendant => " "
  | .child => ">"
  | .nextSibling => "+"
  | .subsequentSibling => "~"

/-- A compound for the subject, and the compounds outward from it, the nearest first. -/
structure Complex where
  subject : Compound
  chain : List (Combinator × Compound) := []
deriving DecidableEq

/-- Alternatives. -/
abbrev Selectors := List Complex

end UniqueSelector.Selector
