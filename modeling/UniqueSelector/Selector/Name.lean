import UniqueSelector.Text.Ascii
import UniqueSelector.Text.Numeral
import UniqueSelector.Text.Quote

/-!
# Name — names and strings as they are written in a selector

A name is a row of letters, digits, hyphens, underscores and characters above ASCII. Any other
character can stand in it behind a backslash, by itself or by its number in base sixteen. Strings
stand between quotation marks and know the same escapes.
-/

namespace UniqueSelector.Selector

/-! ## 1. Characters -/

/-- A character that can begin a name. -/
def isNameStart (c : Char) : Bool := c.isAlpha || c == '_' || 0x80 ≤ c.toNat

/-- A character that can stand in a name. -/
def isNameChar (c : Char) : Bool := isNameStart c || c.isDigit || c == '-'

/-- A character that ends a line. -/
def isLineBreak (c : Char) : Bool := c == '\n' || c == '\r' || c == '\x0c'

/-- Whether a backslash in front of `cs` escapes something. -/
def escapes : List Char → Bool
  | [] => false
  | c :: _ => !isLineBreak c

/-- Whether a name begins here. -/
def startsName : List Char → Bool
  | [] => false
  | '-' :: c :: cs => isNameStart c || c == '-' || (c == '\\' && escapes cs)
  | c :: cs => isNameStart c || (c == '\\' && escapes cs)

/-! ## 2. Escapes -/

/-- One blank at the front is dropped. -/
def dropBlank : List Char → List Char
  | [] => []
  | c :: cs => if isBlank c then cs else c :: cs

/-- The character that is written behind a backslash, and what follows it: up to six digits in base
sixteen with one blank, or the character itself. -/
def readEscape : List Char → Char × List Char
  | [] => (replacement, [])
  | c :: cs =>
    if isHexDigit c then
      let more := (cs.take 5).takeWhile isHexDigit
      (charOf (numberOf 16 (c :: more)), dropBlank (cs.drop more.length))
    else (c, cs)

theorem dropBlank_length_le (cs : List Char) : (dropBlank cs).length ≤ cs.length := by
  unfold dropBlank
  split
  · exact Nat.le_refl _
  · split <;> simp

theorem readEscape_length_le (c : Char) (cs : List Char) :
    (readEscape (c :: cs)).2.length ≤ cs.length := by
  unfold readEscape
  simp only
  split
  · have := dropBlank_length_le (cs.drop ((cs.take 5).takeWhile isHexDigit).length)
    simp only [List.length_drop] at this
    simp only; omega
  · exact Nat.le_refl _

/-! ## 3. Names -/

/-- The longest row of name characters and escapes, read, and what follows it. -/
def readName : List Char → List Char × List Char
  | [] => ([], [])
  | c :: cs =>
    if isNameChar c then
      let r := readName cs
      (c :: r.1, r.2)
    else if c == '\\' then
      match cs with
      | [] => ([], [c])
      | d :: ds =>
        -- A backslash does not reach over the end of a line.
        if isLineBreak d then ([], c :: d :: ds)
        else
          let e := readEscape (d :: ds)
          let r := readName e.2
          (e.1 :: r.1, r.2)
    else ([], c :: cs)
termination_by cs => cs.length
decreasing_by
  · simp
  · have := readEscape_length_le d ds
    simp only [List.length_cons]
    omega

/-! ## 4. Strings -/

/-- The characters up to the closing mark, and what follows it; none if the line or the text ends
first. A line break behind a backslash is dropped. -/
def readString (quote : Char) : List Char → Option (List Char × List Char)
  | [] => none
  | c :: cs =>
    if c == quote then some ([], cs)
    else if isLineBreak c then none
    else if c == '\\' then
      match cs with
      | [] => none
      | d :: ds =>
        if isLineBreak d then readString quote ds
        else
          let e := readEscape (d :: ds)
          (readString quote e.2).map fun (value, rest) => (e.1 :: value, rest)
    else (readString quote cs).map fun (value, rest) => (c :: value, rest)
termination_by cs => cs.length
decreasing_by
  · simp only [List.length_cons]; omega
  · have := readEscape_length_le d ds
    simp only [List.length_cons]
    omega
  · simp

/-- The characters up to the parenthesis that closes `depth + 1` open ones, and what follows it. -/
def readParenthesized : (depth : Nat) → List Char → Option (List Char × List Char)
  | _, [] => none
  | depth, c :: cs =>
    if c == ')' then
      match depth with
      | 0 => some ([], cs)
      | depth + 1 => (readParenthesized depth cs).map fun (text, rest) => (c :: text, rest)
    else
      (readParenthesized (if c == '(' then depth + 1 else depth) cs).map fun (text, rest) =>
        (c :: text, rest)

end UniqueSelector.Selector
