import UniqueSelector.Text.Invisible
import UniqueSelector.Text.Numeral

/-!
# Quoted — a character or a text as it is shown in a message

A shown text stands between quotes. NUL, tab, line feed, carriage return, the backslash and the
quote in use take a backslash; what cannot be seen is written by its number in braces.
-/

namespace UniqueSelector

/-- The form of one character between two quotes `quote`. -/
def shownChar (quote c : Char) : List Char :=
  if c == '\x00' then ['\\', '0']
  else if c == '\t' then ['\\', 't']
  else if c == '\n' then ['\\', 'n']
  else if c == '\r' then ['\\', 'r']
  else if c == '\\' || c == quote then ['\\', c]
  else if c.toNat < 0x20 || (0x7f ≤ c.toNat && isInvisible c) then
    '\\' :: 'u' :: '\x7b' :: hexSmall c.toNat ++ ['\x7d']
  else [c]

def quoted (s : String) : String :=
  String.ofList ('"' :: s.toList.flatMap (shownChar '"') ++ ['"'])

def quotedChar (c : Char) : String :=
  String.ofList ('\'' :: shownChar '\'' c ++ ['\''])

end UniqueSelector
