import UniqueSelector.Proofs.Siblings
import UniqueSelector.Proofs.Spacing

/-!
# Progressions — a formula selects what its step and its offset count out

The places that a formula selects are its offset, the offset and one step, the offset and two steps,
and so on. The test divides by the step, toward zero and in words of 64 bits. Only the least of all
words has no opposite, and no distance that is divided is that word, so every operation of the test
has a result.
-/

namespace UniqueSelector

/-! ## 1. Operations on words of 64 bits -/

/-- The word for an integer, if it has one. -/
def word64? (n : Int) : Option Int :=
  if -9223372036854775808 ≤ n ∧ n < 9223372036854775808 then some n else none

/-- The quotient, rounded toward zero; there is none by zero, and none of the least word by
minus one. -/
def quotient64? (m n : Int) : Option Int := if n = 0 then none else word64? (m.tdiv n)

/-- What is left over by the quotient, if there is a quotient. -/
def rest64? (m n : Int) : Option Int := (quotient64? m n).map fun _ => m.tmod n

theorem word64?_eq_some {n : Int} (h : n.natAbs < 2 ^ 63) : word64? n = some n := if_pos (by omega)

/-- A quotient is no larger than what is divided, so only the least word is in the way. -/
theorem quotient64?_eq_some {m n : Int} (hm : m.natAbs < 2 ^ 63) (hn : n ≠ 0) :
    quotient64? m n = some (m.tdiv n) := by
  rw [quotient64?, if_neg hn]
  exact word64?_eq_some (lt_of_le_of_lt (Int.natAbs_tdiv_le_natAbs m n) hm)

theorem rest64?_eq_some {m n : Int} (hm : m.natAbs < 2 ^ 63) (hn : n ≠ 0) :
    rest64? m n = some (m.tmod n) := by
  rw [rest64?, quotient64?_eq_some hm hn, Option.map_some]

namespace Selector.Nth

/-! ## 2. The test -/

/-- The test of an index, operation by operation; nothing, as soon as one of them has no result. -/
def matches64? (nth : Nth) (index : Nat) : Option Bool :=
  if index ≤ maxIndex then
    if nth.step = 0 then some ((index : Int) == nth.offset)
    else do
      let distance ← word64? (index - nth.offset)
      let rest ← rest64? distance nth.step
      -- The quotient is asked for only where nothing is left over.
      if rest == 0 then
        let quotient ← quotient64? distance nth.step
        return decide (0 ≤ quotient)
      else return false
  else some false

/-- **Every operation of the test has a result**, and together they give the answer of the test
in integers. -/
theorem matches64?_eq_some {nth : Nth} {index : Nat} (hindex : index ≤ maxIndex)
    (hoffset : IsInt32 nth.offset) (hdistance : (index : Int) - nth.offset ≤ maxIndex) :
    matches64? nth index = some (nth.matches index) := by
  have hmax : maxIndex = 2 ^ 63 - 1 := rfl
  have hsmall : ((index : Int) - nth.offset).natAbs < 2 ^ 63 := by
    have := hoffset.2
    omega
  rw [matches64?, if_pos hindex, Nth.matches, if_pos hindex]
  by_cases hstep : nth.step = 0
  · simp only [hstep, if_true]
  · simp only [hstep, if_false, word64?_eq_some hsmall, rest64?_eq_some hsmall hstep,
      quotient64?_eq_some hsmall hstep, Option.bind_eq_bind, Option.bind_some, Option.pure_def]
    split
    · next hrest => rw [hrest, Bool.true_and]
    · next hrest => rw [Bool.eq_false_iff.2 hrest, Bool.false_and]

/-- An index is selected if a whole number of steps, and not a negative one, leads to it from
the offset. -/
theorem matches_iff_exists {nth : Nth} {index : Nat} (hindex : index ≤ maxIndex) :
    nth.matches index = true ↔ ∃ n : Nat, nth.step * n + nth.offset = index := by
  rw [Nth.matches, if_pos hindex]
  split
  · next hstep =>
    rw [beq_iff_eq, hstep]
    constructor
    · exact fun h => ⟨0, by omega⟩
    · rintro ⟨n, hn⟩
      rw [Int.zero_mul] at hn
      omega
  · next hstep =>
    rw [Bool.and_eq_true, beq_iff_eq, decide_eq_true_eq, ← Int.dvd_iff_tmod_eq_zero]
    constructor
    · rintro ⟨⟨k, hk⟩, hsign⟩
      rw [hk, Int.mul_tdiv_cancel_left k hstep] at hsign
      obtain ⟨n, rfl⟩ := Int.eq_ofNat_of_zero_le hsign
      exact ⟨n, by omega⟩
    · rintro ⟨n, hn⟩
      have hdistance : (index : Int) - nth.offset = nth.step * n := by omega
      rw [hdistance, Int.mul_tdiv_cancel_left _ hstep]
      exact ⟨Int.dvd_mul_right _ _, Int.natCast_nonneg n⟩

/-! ## 3. The text -/

/-- A number alone is an offset without steps. -/
theorem read?_toString {b : Int} (hb : IsInt32 b) : read? (toString b).toList = some ⟨0, b⟩ := by
  have hread := int32?_toString hb
  have hne : (toString b).toList ≠ [] := by
    intro hnil
    rw [hnil] at hread
    cases hread
  rw [read?_of_forall fun c hc =>
    ⟨(figure_of_mem_toString hc).sound.1, (figure_of_mem_toString hc).sound.2.1⟩,
    readCompact?_of_no_letter hne fun c hc => (figure_of_mem_toString hc).ne_letter, hread]
  rfl

/-- The texts of a formula: the step with its letter and the offset with its sign, or the offset
alone without a step. -/
def WrittenAs (a b : Int) (argument : String) : Prop :=
  argument = print ⟨a, b⟩ ∨ a = 0 ∧ argument = toString b

theorem read?_of_writtenAs {a b : Int} (ha : IsInt32 a) (hb : IsInt32 b) {argument : String}
    (h : WrittenAs a b argument) : read? argument.toList = some ⟨a, b⟩ := by
  rcases h with rfl | ⟨rfl, rfl⟩
  · exact read?_print ha hb
  · exact read?_toString hb

theorem parenthesis_notMem_of_writtenAs {a b : Int} {argument : String}
    (h : WrittenAs a b argument) :
    '(' ∉ argument.toList ∧ ')' ∉ argument.toList := by
  have hsound : ∀ c ∈ argument.toList, c ≠ '(' ∧ c ≠ ')' := by
    rcases h with rfl | ⟨-, rfl⟩
    · exact fun c hc => (sound_of_mem_print hc).2.2.2
    · exact fun c hc => (figure_of_mem_toString hc).sound.2.2.2.2
  exact ⟨fun hc => (hsound _ hc).1 rfl, fun hc => (hsound _ hc).2 rfl⟩

/-- **A written formula selects its progression**: it is read as the step and the offset that it was
written for, every operation of the test on an index has a result, and the index is selected if and
only if a natural number of steps leads to it from the offset. -/
theorem selects_progression {a b : Int} (ha : IsInt32 a) (hb : IsInt32 b) {index : Nat}
    (hindex : index ≤ maxIndex) (hdistance : (index : Int) - b ≤ maxIndex) {argument : String}
    (hargument : WrittenAs a b argument) :
    read? argument.toList = some ⟨a, b⟩ ∧
      parse (":nth-child(" ++ argument ++ ")") = .ok (Pseudo.nthChild ⟨a, b⟩).alone ∧
      matches64? ⟨a, b⟩ index = some (Nth.matches ⟨a, b⟩ index) ∧
      (Nth.matches ⟨a, b⟩ index = true ↔ ∃ n : Nat, a * n + b = index) := by
  have hread := read?_of_writtenAs ha hb hargument
  refine ⟨hread, ?_, matches64?_eq_some hindex hb hdistance, matches_iff_exists hindex⟩
  rw [parse_nthChild (parenthesis_notMem_of_writtenAs hargument), hread]
  rfl

/-- Steps down from the largest offset, by the least number that 32 bits hold. -/
theorem selects_progression_downward :
    let a := -2147483648
    let b := 2147483647
    (IsInt32 a ∧ IsInt32 b ∧ 2147483647 ≤ maxIndex ∧ ((2147483647 : Nat) : Int) - b ≤ maxIndex ∧
      WrittenAs a b "-2147483648n+2147483647") ∧
      read? "-2147483648n+2147483647".toList = some ⟨a, b⟩ ∧
      parse (":nth-child(" ++ "-2147483648n+2147483647" ++ ")") =
      .ok (Pseudo.nthChild ⟨a, b⟩).alone ∧
      matches64? ⟨a, b⟩ 2147483647 = some (Nth.matches ⟨a, b⟩ 2147483647) ∧
      (Nth.matches ⟨a, b⟩ 2147483647 = true ↔ ∃ n : Nat, a * n + b = (2147483647 : Nat)) := by
  intro a b
  have ha : IsInt32 a := by decide
  have hb : IsInt32 b := by decide
  have hindex : 2147483647 ≤ maxIndex := by decide
  have hdistance : ((2147483647 : Nat) : Int) - b ≤ maxIndex := by decide
  have hargument : WrittenAs a b "-2147483648n+2147483647" := .inl (by decide +kernel)
  exact ⟨⟨ha, hb, hindex, hdistance, hargument⟩,
    selects_progression ha hb hindex hdistance hargument⟩

end Selector.Nth

end UniqueSelector
