/-!
# Units — a text as 16-bit code units

Characters above U+FFFF take two units, a high and a low surrogate; every other character takes one.
-/

namespace UniqueSelector

/-- The unit that a number below 2^16 stands for. -/
abbrev CodeUnit := UInt16

/-- The first half of a pair. -/
def CodeUnit.isHigh (u : CodeUnit) : Bool := 0xD800 ≤ u && u ≤ 0xDBFF

/-- The second half of a pair. -/
def CodeUnit.isLow (u : CodeUnit) : Bool := 0xDC00 ≤ u && u ≤ 0xDFFF

/-- The code point that a high and a low surrogate stand for together. -/
def CodeUnit.combine (high low : CodeUnit) : Nat :=
  (high.toNat - 0xD800) * 0x400 + (low.toNat - 0xDC00) + 0x10000

/-- One unit, or a high and a low surrogate. -/
def charUnits (c : Char) : List CodeUnit :=
  if c.toNat < 0x10000 then [UInt16.ofNat c.toNat]
  else
    let offset := c.toNat - 0x10000
    [UInt16.ofNat (0xD800 + offset / 0x400), UInt16.ofNat (0xDC00 + offset % 0x400)]

def codeUnits (s : String) : List CodeUnit := s.toList.flatMap charUnits

end UniqueSelector
