import UniqueSelector.Text.Quoted
import UniqueSelector.Warning

/-!
# Fault — why a text is no selector

A fault names its place by the number of characters in front of it.
-/

namespace UniqueSelector.Selector

/-- The reason why a selector cannot be read. -/
inductive Fault where
  /-- A selector has nothing in it. -/
  | empty
  /-- A character stands where it cannot. -/
  | unexpected (found : Char) (position : Nat)
  /-- The text ends inside a selector. -/
  | unexpectedEnd
  /-- A string that begins at `position` does not end on its line. -/
  | unterminatedString (position : Nat)
  /-- The argument of a counting pseudo-class is no formula. -/
  | invalidNth (argument : String)
deriving DecidableEq

def Fault.message : Fault → String
  | .empty => "empty selector"
  | .unexpected found position =>
    "unexpected " ++ quotedChar found ++ " at offset " ++ toString position
  | .unexpectedEnd => "unexpected end of selector"
  | .unterminatedString position => "unterminated string at offset " ++ toString position
  | .invalidNth argument => "invalid An+B expression " ++ quoted argument

/-- The warning on a pseudo-class that is read but not known. -/
def unsupportedPseudoClass (name : String) : Warning where
  component := "CSS"
  message := "unsupported pseudo-class ':" ++ name ++ "' never matches"

end UniqueSelector.Selector
