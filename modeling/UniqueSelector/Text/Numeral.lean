/-!
# Numeral — numbers in text

Decimal numbers with a range, hexadecimal digits, and the character that a number names.
-/

namespace UniqueSelector

/-! ## 1. Digits -/

/-- The value of a digit in base ten or sixteen, letters in either case. -/
def digitValue (c : Char) : Nat :=
  if c.isDigit then c.toNat - '0'.toNat
  else if 'a' ≤ c && c ≤ 'f' then c.toNat - 'a'.toNat + 10
  else c.toNat - 'A'.toNat + 10

def isHexDigit (c : Char) : Bool :=
  c.isDigit || ('a' ≤ c && c ≤ 'f') || ('A' ≤ c && c ≤ 'F')

/-- The number that a row of digits writes, most significant first. -/
def numberOf (base : Nat) (digits : List Char) : Nat :=
  digits.foldl (fun n c => n * base + digitValue c) 0

/-- The shortest hexadecimal form, in capitals. -/
def hexCapitals (n : Nat) : List Char := (Nat.toDigits 16 n).map Char.toUpper

/-- The shortest hexadecimal form, in small letters. -/
def hexSmall (n : Nat) : List Char := Nat.toDigits 16 n

/-! ## 2. Decimal numbers -/

/-- A row of decimal digits, at least one. -/
def natural? (digits : List Char) : Option Nat :=
  if digits.isEmpty || !digits.all Char.isDigit then none else some (numberOf 10 digits)

/-- An optional sign and decimal digits. -/
def integer? : List Char → Option Int
  | '+' :: digits => (natural? digits).map Int.ofNat
  | '-' :: digits => (natural? digits).map fun n => -Int.ofNat n
  | digits => (natural? digits).map Int.ofNat

/-- An integer of 32 bits. -/
def int32? (cs : List Char) : Option Int :=
  (integer? cs).filter fun n => -2147483648 ≤ n && n < 2147483648

/-- The largest count that 64 bits hold. -/
def maxCount : Nat := Nat.pow 2 64 - 1

/-- A count of 64 bits; a plus sign may stand in front. -/
def count? : List Char → Option Nat
  | '+' :: digits => (natural? digits).filter (· ≤ maxCount)
  | digits => (natural? digits).filter (· ≤ maxCount)

/-- An integer with its sign always written. -/
def signed (n : Int) : String := if n < 0 then toString n else "+" ++ toString n

/-! ## 3. Characters by number -/

/-- The character that stands in for one that cannot be. -/
def replacement : Char := '\ufffd'

/-- The character with the number `n`; zero, surrogates and numbers too large name the
replacement. -/
def charOf (n : Nat) : Char :=
  if n = 0 then replacement
  else if n.isValidChar then Char.ofNat n
  else replacement

end UniqueSelector
