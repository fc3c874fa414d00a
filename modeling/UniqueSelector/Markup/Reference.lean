import UniqueSelector.Markup.Token
import UniqueSelector.Text.Numeral

/-!
# Reference — characters written by name or number

An ampersand begins a reference: a name, or a number in base ten or sixteen. What is no reference
leaves the ampersand as a character of its own and reading goes on right behind it.
-/

namespace UniqueSelector.Markup

/-- A name that stands for a character; in texts some names do without the closing semicolon. -/
structure NamedReference where
  name : String
  character : Char
  semicolonOptional : Bool

def namedReferences : List NamedReference :=
  [⟨"amp", '&', true⟩, ⟨"lt", '<', true⟩, ⟨"gt", '>', true⟩, ⟨"quot", '"', true⟩,
    ⟨"apos", '\'', false⟩, ⟨"nbsp", '\u00a0', true⟩, ⟨"copy", '\u00a9', true⟩,
    ⟨"reg", '\u00ae', true⟩, ⟨"hellip", '\u2026', false⟩, ⟨"mdash", '\u2014', false⟩,
    ⟨"ndash", '\u2013', false⟩, ⟨"laquo", '\u00ab', true⟩, ⟨"raquo", '\u00bb', true⟩,
    ⟨"times", '\u00d7', true⟩]

/-- What an ampersand stands for, what follows it, and a remark if its name is not known. -/
structure Resolved where
  character : Char
  rest : List Char
  remark : Option Remark := none

/-- The ampersand itself, with all of `cs` still to be read. -/
def Resolved.ampersand (cs : List Char) : Resolved := ⟨'&', cs, none⟩

def dropSemicolon : List Char → List Char
  | ';' :: cs => cs
  | cs => cs

/-- The digits in the base at the front of `cs`, read as a number; `whole` is what follows
the ampersand. -/
def resolveDigits (base : Nat) (isDigit : Char → Bool) (whole cs : List Char) : Resolved :=
  let digits := cs.takeWhile isDigit
  if digits.isEmpty then .ampersand whole
  else ⟨charOf (numberOf base digits), dropSemicolon (cs.dropWhile isDigit), none⟩

/-- A reference by number; `cs` follows the ampersand and the number sign. -/
def resolveNumber (whole : List Char) : List Char → Resolved
  | 'x' :: cs => resolveDigits 16 isHexDigit whole cs
  | 'X' :: cs => resolveDigits 16 isHexDigit whole cs
  | cs => resolveDigits 10 Char.isDigit whole cs

/-- The letters and digits at the front, at most 32. -/
def referenceName (cs : List Char) : List Char := (cs.take 32).takeWhile Char.isAlphanum

/-- A reference by name at the front of `cs`. In a value of an attribute the semicolon
is required. -/
def resolveName (inAttribute : Bool) (cs : List Char) : Resolved :=
  let name := referenceName cs
  if name.isEmpty then .ampersand cs
  else
    let after := cs.drop name.length
    let closed := after.head? == some ';'
    match namedReferences.find? (·.name.toList == name) with
    | some known =>
      -- In an address the name may be that of a parameter, so a value needs the semicolon.
      if closed then ⟨known.character, after.tail, none⟩
      else if known.semicolonOptional && !inAttribute then ⟨known.character, after, none⟩
      else .ampersand cs
    -- Without a semicolon it need not be a reference, and nothing is remarked.
    | none =>
      { Resolved.ampersand cs with
        remark := if closed then some (.unknownReference (String.ofList name)) else none }

def resolve (inAttribute : Bool) : List Char → Resolved
  | '#' :: cs => resolveNumber ('#' :: cs) cs
  | cs => resolveName inAttribute cs

/-! ## Reading never goes back behind the ampersand -/

theorem dropSemicolon_length_le (cs : List Char) : (dropSemicolon cs).length ≤ cs.length := by
  unfold dropSemicolon
  split <;> simp

theorem resolveDigits_length_le (base : Nat) (isDigit : Char → Bool) (whole cs : List Char)
    (h : cs.length ≤ whole.length) :
    (resolveDigits base isDigit whole cs).rest.length ≤ whole.length := by
  unfold resolveDigits
  simp only
  split
  · simp [Resolved.ampersand]
  · exact Nat.le_trans (dropSemicolon_length_le _)
      (Nat.le_trans (List.dropWhile_suffix isDigit).length_le h)

theorem resolveNumber_length_le (whole cs : List Char) (h : cs.length ≤ whole.length) :
    (resolveNumber whole cs).rest.length ≤ whole.length := by
  unfold resolveNumber
  split <;> apply resolveDigits_length_le
  · exact Nat.le_trans (Nat.le_succ _) h
  · exact Nat.le_trans (Nat.le_succ _) h
  · exact h

theorem resolveName_length_le (inAttribute : Bool) (cs : List Char) :
    (resolveName inAttribute cs).rest.length ≤ cs.length := by
  unfold resolveName
  simp only
  split
  · simp [Resolved.ampersand]
  · split
    · split
      · simp only [List.length_tail, List.length_drop]; omega
      · split
        · simp only [List.length_drop]; omega
        · simp [Resolved.ampersand]
    · simp [Resolved.ampersand]

theorem resolve_length_le (inAttribute : Bool) (cs : List Char) :
    (resolve inAttribute cs).rest.length ≤ cs.length := by
  unfold resolve
  split
  · exact resolveNumber_length_le _ _ (by simp)
  · exact resolveName_length_le _ _

end UniqueSelector.Markup
