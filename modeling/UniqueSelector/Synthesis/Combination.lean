import UniqueSelector.Synthesis.Level
import UniqueSelector.Text.Numeral

/-!
# Combination — one candidate from each level

The combinations of a stack of levels are run through like the counters of an odometer: the last
level turns fastest. Their number is known beforehand, up to the largest count.
-/

namespace UniqueSelector

/-! ## 1. How many -/

/-- The product of the sizes; once it passes the largest count it stays there. -/
def countOfSizes (sizes : List Nat) : Nat :=
  -- Once the largest count is passed the total is none, whatever sizes follow.
  (sizes.foldl (fun total size => total.bind fun n => if n * size ≤ maxCount then
    some (n * size) else none) (some 1)).getD maxCount

/-- The number of combinations, as far as it can be counted. -/
def combinationCount (stack : List Level) : Nat := countOfSizes (stack.map List.length)

/-! ## 2. One after another -/

/-- A place in the row of combinations: an index into each level, or the end of the row. -/
structure Odometer where
  stack : List Level
  indices : Option (List Nat)

namespace Odometer

/-- The first combination; a stack with an empty level has none. -/
def start (stack : List Level) : Odometer where
  stack := stack
  indices := if stack.all (!·.isEmpty) then some (stack.map fun _ => 0) else none

/-- The next indices: the last level that can turn does, and those behind it start again. -/
def advance : List Level → List Nat → Option (List Nat)
  | level :: stack, i :: indices =>
    match advance stack indices with
    | some indices => some (i :: indices)
    -- The levels behind have run through: this one turns, and they start again.
    | none => if i + 1 < level.length then some ((i + 1) :: indices.map fun _ => 0) else none
  | _, _ => none

/-- The candidates that the indices point at. -/
def select (stack : List Level) (indices : List Nat) : Path :=
  (stack.zip indices).filterMap fun (level, i) => level[i]?

/-- The combination at this place, and the place behind it; none at the end of the row. -/
def next? (o : Odometer) : Option (Path × Odometer) :=
  o.indices.map fun indices =>
    (select o.stack indices, { o with indices := advance o.stack indices })

/-- Turns at most `n` times; what is met comes behind `paths`, and the place reached is returned
with it. -/
def collect : (n : Nat) → (o : Odometer) → (paths : Array Path) → Array Path × Odometer
  | 0, o, paths => (paths, o)
  | n + 1, o, paths =>
    match o.next? with
    | none => (paths, o)
    | some (path, o) => collect n o (paths.push path)

/-- The whole row from its start, and the place behind it. -/
def run (stack : List Level) : Array Path × Odometer :=
  collect ((stack.map List.length).foldl (· * ·) 1) (start stack) #[]

end Odometer

/-- The combinations of a stack, in order. -/
def combinations (stack : List Level) : List Path := (Odometer.run stack).1.toList

end UniqueSelector
