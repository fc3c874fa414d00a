import UniqueSelector.Selector.Fault

/-!
# Reading — what reading a part of a selector yields

A reader looks at what is left of the text. It yields a value with what it leaves, or a fault, and
in both cases the warnings on the way. A reader that yields never leaves more than it was given
(`Reading.Within`), and one that has to take something leaves less; loops over readers end because
of that.
-/

namespace UniqueSelector.Selector

inductive Reading (α : Type) where
  | ok (value : α) (rest : List Char) (warnings : List Warning)
  | fault (f : Fault) (warnings : List Warning)

namespace Reading

def pure (value : α) (rest : List Char) : Reading α := .ok value rest []

def fail (f : Fault) : Reading α := .fault f []

/-- Warnings that came before. -/
def after (warnings : List Warning) : Reading α → Reading α
  | .ok value rest ws => .ok value rest (warnings ++ ws)
  | .fault f ws => .fault f (warnings ++ ws)

/-- Reads on with what was left. -/
def bind (r : Reading α) (next : α → List Char → Reading β) : Reading β :=
  match r with
  | .ok value rest warnings => (next value rest).after warnings
  | .fault f warnings => .fault f warnings

/-- Reading leaves at most `n` characters. -/
def Within (n : Nat) : Reading α → Prop
  | .ok _ rest _ => rest.length ≤ n
  | .fault _ _ => True

theorem within_pure {value : α} {rest : List Char} {n : Nat} (h : rest.length ≤ n) :
    (pure value rest).Within n := h

theorem within_after {r : Reading α} {n : Nat} (warnings : List Warning) :
    (r.after warnings).Within n ↔ r.Within n := by cases r <;> exact Iff.rfl

theorem within_bind {r : Reading α} {next : α → List Char → Reading β} {m n : Nat} (h : r.Within m)
    (hnext : ∀ value rest, rest.length ≤ m → (next value rest).Within n) :
    (r.bind next).Within n := by
  cases r with
  | ok value rest warnings => exact (within_after warnings).2 (hnext value rest h)
  | fault f warnings => trivial

theorem Within.mono {r : Reading α} {m n : Nat} (h : r.Within m) (hmn : m ≤ n) : r.Within n := by
  cases r with
  | ok value rest warnings => exact Nat.le_trans h hmn
  | fault f warnings => trivial

end Reading

/-- The fault of a text of `total` characters that cannot go on with `cs`. -/
def faultAt (total : Nat) : List Char → Fault
  | [] => .unexpectedEnd
  | c :: cs => .unexpected c (total - (c :: cs).length)

end UniqueSelector.Selector
