import UniqueSelector.Selector.Basic
import UniqueSelector.Text.Numeral

/-!
# Formula — indexes written as a step and an offset

The argument of the counting pseudo-classes: `odd`, `even`, a number, or a step with the letter `n`
and an offset. Blanks are dropped wherever they stand, and capitals count as small letters.
-/

namespace UniqueSelector.Selector.Nth

/-- The step in front of the letter `n`; alone, the letter or its sign count one. -/
def readStep? : List Char → Option Int
  | [] => some 1
  | ['+'] => some 1
  | ['-'] => some (-1)
  | cs => int32? cs

/-- The offset behind the letter `n`, with its sign; none is zero. -/
def readOffset? : List Char → Option Int
  | [] => some 0
  | c :: cs => if (c == '+' || c == '-') && !cs.isEmpty then int32? (c :: cs) else none

/-- A formula without blanks and capitals. -/
def readCompact? (cs : List Char) : Option Nth :=
  if cs == "odd".toList then some ⟨2, 1⟩
  else if cs == "even".toList then some ⟨2, 0⟩
  else if cs.isEmpty then none
  else match cs.dropWhile (· != 'n') with
    | [] => (int32? cs).map fun offset => ⟨0, offset⟩
    | _ :: after => do
      let step ← readStep? (cs.takeWhile (· != 'n'))
      let offset ← readOffset? after
      return ⟨step, offset⟩

def read? (argument : List Char) : Option Nth :=
  readCompact? ((argument.filter fun c => !isBlank c).map Char.toLower)

end UniqueSelector.Selector.Nth
