/-!
# Cost — what a piece of a selector costs

A cost is a multiple of one eighth with 53 binary digits. Small sums are exact; a large one goes to
the nearest cost, and from half way to the one whose last digit is even. Zero has a sign, and beyond
the largest cost lies infinity. A selector that costs less is preferred.
-/

namespace UniqueSelector

/-! ## 1. Costs -/

/-- A cost; a finite one is a sign and a number of eighths. -/
inductive Cost where
  | finite (negative : Bool) (eighths : Nat)
  | infinite (negative : Bool)
  /-- The sum of two infinities that differ in sign. -/
  | undefined
deriving DecidableEq

namespace Cost

def zero : Cost := .finite false 0

/-- A name that one element has for itself. -/
def forId : Cost := .finite false 0

/-- A condition on an attribute: one half. -/
def forAttribute : Cost := .finite false 4

/-- A class: one. -/
def forClass : Cost := .finite false 8

/-- A tag: two. -/
def forTag : Cost := .finite false 16

/-- The star: three. -/
def forAny : Cost := .finite false 24

/-- Counting among siblings costs one more. -/
def forCounting : Cost := .finite false 8

/-! ## 2. Rounding -/

/-- How many binary digits a cost has. -/
def precision : Nat := 53

/-- The number of eighths at which infinity begins. -/
def limit : Nat := Nat.pow 2 1027

/-- The nearest number that has at most `precision` binary digits before its zeros; from half way
the one whose last such digit is even. -/
def nearest (n : Nat) : Nat :=
  let step := Nat.pow 2 (n.log2 + 1 - precision)
  let kept := n / step
  let rest := n % step
  if 2 * rest < step ∨ (2 * rest = step ∧ kept % 2 = 0) then kept * step else (kept + 1) * step

/-- A number of few digits is kept as it is. -/
theorem nearest_of_lt {n : Nat} (h : n < Nat.pow 2 precision) : nearest n = n := by
  have hstep : n.log2 + 1 - precision = 0 := by
    by_cases hn : n = 0
    · subst hn
      decide
    · have := (Nat.log2_lt hn).2 h
      omega
  simp [nearest, hstep, Nat.mod_one]

/-- The cost nearest to a number of eighths. -/
def ofEighths (n : Int) : Cost :=
  let size := nearest n.natAbs
  if size < limit then .finite (n < 0) size else .infinite (n < 0)

/-! ## 3. Sums -/

def signed (negative : Bool) (eighths : Nat) : Int := if negative then -eighths else eighths

/-- The sum of two costs. A sum of zero is negative only if both costs are negative zeros. -/
def add : Cost → Cost → Cost
  | .finite s a, .finite t b =>
    let total := signed s a + signed t b
    if total = 0 then .finite (s && t) 0 else ofEighths total
  | .infinite s, .infinite t => if s = t then .infinite s else .undefined
  | .infinite s, .finite .. => .infinite s
  | .finite .., .infinite t => .infinite t
  | .undefined, _ => .undefined
  | _, .undefined => .undefined

instance : Add Cost := ⟨add⟩

/-- The sum of costs, one after another. It begins with a negative zero, which changes no cost. -/
def sum (costs : List Cost) : Cost := costs.foldl (· + ·) (.finite true 0)

/-! ## 4. Order -/

/-- The place of a cost: an undefined one comes first, then they go by size, and a negative zero
comes before the other. -/
def rank : Cost → Int × Int
  | .undefined => (-2, 0)
  | .infinite true => (-1, 0)
  -- One less than its value, so that a negative zero has a place of its own.
  | .finite true eighths => (0, -eighths - 1)
  | .finite false eighths => (0, eighths)
  | .infinite false => (1, 0)

instance : LE Cost := ⟨fun a b => a.rank.1 < b.rank.1 ∨ (a.rank.1 = b.rank.1 ∧ a.rank.2 ≤ b.rank.2)⟩

instance : DecidableLE Cost := fun a b =>
  inferInstanceAs (Decidable (a.rank.1 < b.rank.1 ∨ (a.rank.1 = b.rank.1 ∧ a.rank.2 ≤ b.rank.2)))

/-! ## 5. Text -/

def sign (negative : Bool) : String := if negative then "-" else ""

/-- A cost with three decimals, which are always enough. -/
def decimal : Cost → String
  | .undefined => "NaN"
  | .infinite negative => sign negative ++ "inf"
  | .finite negative eighths =>
    let thousandths := eighths * 125
    let fraction := toString (thousandths % 1000)
    sign negative ++ toString (thousandths / 1000) ++ "." ++
      String.join (List.replicate (3 - fraction.length) "0") ++ fraction

end Cost

end UniqueSelector
