import UniqueSelector.Text.Numeral
import UniqueSelector.Text.Quote
import UniqueSelector.Text.Units

/-!
# Escape — any text as a name or a string of a selector

A character that would be read as something else takes a backslash, or is written by its number in
base sixteen and a blank. The output is printable ASCII. A blank behind a number is dropped again
where what follows cannot be mistaken for a part of it.
-/

namespace UniqueSelector.Selector

/-! ## 1. Options -/

/-- How a text is escaped. -/
structure EscapeStyle where
  /-- Escape every character, also those that could stand as they are. -/
  everything : Bool := false
  /-- Write a name rather than the inside of a string. -/
  identifier : Bool := false
  /-- The mark around the string. -/
  quote : Quote := .single
  /-- Put the mark around a string; a name takes none. -/
  wrap : Bool := false

def EscapeStyle.name : EscapeStyle := { identifier := true }

def EscapeStyle.string (quote : Quote) : EscapeStyle := { quote }

/-! ## 2. One character -/

/-- Signs that take a backslash in a name: all but letters, digits, the hyphen, the underscore and
the backslash. -/
def isNameSign (c : Char) : Bool :=
  (' ' ≤ c && c ≤ ',') || c == '.' || c == '/' || (':' ≤ c && c ≤ '@') || c == '[' || c == ']' ||
    c == '^' || c == '\x60' || ('{' ≤ c && c ≤ '~')

/-- Signs that take a backslash when everything is escaped: all but letters, digits, the hyphen and
the underscore. -/
def isAnySign (c : Char) : Bool := isNameSign c || c == '\\'

/-- A code point by its number, in capitals, with a blank behind it. -/
def byNumber (n : Nat) : List Char := '\\' :: hexCapitals n ++ [' ']

/-- A printable ASCII character. -/
def EscapeStyle.printable (style : EscapeStyle) (c : Char) : List Char :=
  if style.everything then if isAnySign c then ['\\', c] else byNumber c.toNat
  else if c == '\\' then ['\\', c]
  else if style.identifier then if isNameSign c then ['\\', c] else [c]
  else if c == style.quote.char then ['\\', c] else [c]

/-- A code unit that stands by itself. -/
def EscapeStyle.unit (style : EscapeStyle) (u : CodeUnit) : List Char :=
  if 0x20 ≤ u && u ≤ 0x7e then style.printable (Char.ofNat u.toNat) else byNumber u.toNat

/-! ## 3. A row of code units -/

/-- The units one after another; a high and a low surrogate next to each other are one
code point. -/
def EscapeStyle.units (style : EscapeStyle) : List CodeUnit → List Char
  | [] => []
  | [u] => style.unit u
  | u :: v :: rest =>
    if u.isHigh && v.isLow then byNumber (u.combine v) ++ units style rest
    else style.unit u ++ units style (v :: rest)

/-- A name cannot begin with a digit, nor with a hyphen and a digit or a second hyphen. -/
def guardStart : List Char → List Char
  | '-' :: c :: cs => if c == '-' || c.isDigit then '\\' :: '-' :: c :: cs else '-' :: c :: cs
  -- The number of a digit is a three followed by the digit.
  | c :: cs => if c.isDigit then '\\' :: '3' :: c :: ' ' :: cs else c :: cs
  | [] => []

/-! ## 4. Blanks behind numbers -/

/-- Where dropping blanks stands in the text. -/
inductive BlankState where
  | plain
  /-- Behind a row of backslashes; `odd` if the last one escapes. -/
  | slashes (odd : Bool)
  /-- Behind a row of backslashes and `count` digits of a number. -/
  | number (odd : Bool) (count : Nat)

/-- A digit of a number as it is written here. -/
def isHexCapital (c : Char) : Bool := c.isDigit || ('A' ≤ c && c ≤ 'F')

/-- Whether a blank in front of `cs` separates a number from what follows. -/
def needsBlank : List Char → Bool
  | [] => false
  | c :: _ => isHexDigit c || c == ' '

/-- The state behind a character that belongs to no number. -/
def BlankState.restart (c : Char) : BlankState := if c == '\\' then .slashes true else .plain

/-- Drops the blanks that separate nothing. -/
def dropBlanks : BlankState → List Char → List Char
  | _, [] => []
  | .plain, c :: cs => c :: dropBlanks (.restart c) cs
  | .slashes odd, c :: cs =>
    if c == '\\' then c :: dropBlanks (.slashes !odd) cs
    else if isHexCapital c then c :: dropBlanks (.number odd 1) cs
    else c :: dropBlanks .plain cs
  | .number odd count, c :: cs =>
    -- A number has six digits at most; a seventh is text.
    if isHexCapital c && count < 6 then c :: dropBlanks (.number odd (count + 1)) cs
    -- After an even row of backslashes the digits are text, and so is the blank.
    else if c == ' ' && odd && !needsBlank cs then dropBlanks .plain cs
    else c :: dropBlanks (.restart c) cs

/-! ## 5. Whole texts -/

/-- A row of code units, escaped. -/
def escapeUnits (style : EscapeStyle) (units : List CodeUnit) : String :=
  let body := style.units units
  let body := dropBlanks .plain (if style.identifier then guardStart body else body)
  String.ofList <|
    if !style.identifier && style.wrap then style.quote.char :: body ++ [style.quote.char] else body

def escape (style : EscapeStyle) (text : String) : String := escapeUnits style (codeUnits text)

def escapeName (text : String) : String := escape .name text

end UniqueSelector.Selector
