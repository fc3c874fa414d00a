import UniqueSelector.Proofs.Fragments

/-!
# Formulas — a step and an offset in the text of a selector

Integers are written in decimal, the offset of a formula always with its sign. Within 32 bits the
reader takes a formula for the step and the offset that it was written for, down to the least
number, whose opposite is out of range.
-/

namespace UniqueSelector

open Selector

/-! ## 1. Integers -/

/-- An integer that 32 bits hold. -/
def IsInt32 (n : Int) : Prop := -2147483648 ≤ n ∧ n < 2147483648

instance (n : Int) : Decidable (IsInt32 n) := inferInstanceAs (Decidable (_ ∧ _))

/-- The sign and the digits of an integer. -/
def signedDigits (n : Int) : List Char := (if n < 0 then '-' else '+') :: Nat.toDigits 10 n.natAbs

theorem toList_toString_nat (n : Nat) : (toString n).toList = Nat.toDigits 10 n := by
  rw [Nat.toString_eq_repr, Nat.toList_repr]

/-- A plus is not written unless it is asked for. -/
theorem toList_toString_int (n : Int) :
    (toString n).toList = if n < 0 then signedDigits n else Nat.toDigits 10 n.natAbs := by
  cases n with
  | ofNat m =>
    have hsign : ¬Int.ofNat m < 0 := Int.not_lt.2 (Int.natCast_nonneg m)
    rw [if_neg hsign]
    exact toList_toString_nat m
  | negSucc m =>
    have hminus : "-".toList = ['-'] := by decide
    rw [if_pos (Int.negSucc_lt_zero m), signedDigits, if_pos (Int.negSucc_lt_zero m)]
    show ("-" ++ toString (m + 1)).toList = _
    rw [String.toList_append, toList_toString_nat, hminus]
    rfl

theorem toList_signed (n : Int) : (signed n).toList = signedDigits n := by
  have hplus : "+".toList = ['+'] := by decide
  unfold signed
  by_cases hn : n < 0
  · rw [if_pos hn, toList_toString_int, if_pos hn]
  · rw [if_neg hn, String.toList_append, toList_toString_int, if_neg hn, hplus, signedDigits,
      if_neg hn]
    rfl

theorem int32?_signedDigits {n : Int} (hn : IsInt32 n) : int32? (signedDigits n) = some n := by
  have hinteger : integer? (signedDigits n) = some n := by
    unfold signedDigits
    split
    · next hneg =>
      show (natural? (Nat.toDigits 10 n.natAbs)).map (fun n => -Int.ofNat n) = some n
      rw [natural?_toDigits, Option.map_some]
      exact congrArg some (by show -(n.natAbs : Int) = n; omega)
    · next hneg =>
      show (natural? (Nat.toDigits 10 n.natAbs)).map Int.ofNat = some n
      rw [natural?_toDigits, Option.map_some]
      exact congrArg some (by show (n.natAbs : Int) = n; omega)
  rw [int32?, hinteger, Option.filter_some, if_pos]
  rw [Bool.and_eq_true, decide_eq_true_eq, decide_eq_true_eq]
  exact hn

theorem int32?_toString {n : Int} (hn : IsInt32 n) : int32? (toString n).toList = some n := by
  rw [toList_toString_int]
  by_cases hneg : n < 0
  · rw [if_pos hneg]
    exact int32?_signedDigits hn
  · have hlt : n.natAbs < 2 ^ 31 := by
      have := hn.2
      omega
    rw [if_neg hneg, int32?_toDigits, if_pos hlt]
    exact congrArg some (by omega)

/-! ## 2. Formulas -/

namespace Selector.Nth

/-- The step in front of the letter, and the offset with its sign. -/
def print (nth : Nth) : String := toString nth.step ++ "n" ++ signed nth.offset

theorem toList_print (nth : Nth) :
    nth.print.toList = (toString nth.step).toList ++ 'n' :: signedDigits nth.offset := by
  have hletter : "n".toList = ['n'] := by decide
  rw [print, String.toList_append, String.toList_append, toList_signed, hletter, List.append_assoc,
    List.singleton_append]

/-- What a number is written with. -/
def Figure (c : Char) : Prop := Inert c ∨ c = '+' ∨ c = '-'

theorem figure_of_mem_signedDigits {n : Int} {c : Char} (hc : c ∈ signedDigits n) : Figure c := by
  rcases List.mem_cons.1 hc with rfl | hc
  · split
    · exact .inr (.inr rfl)
    · exact .inr (.inl rfl)
  · exact .inl (inert_of_mem_toDigits hc)

theorem figure_of_mem_toString {n : Int} {c : Char} (hc : c ∈ (toString n).toList) : Figure c := by
  rw [toList_toString_int] at hc
  split at hc
  · exact figure_of_mem_signedDigits hc
  · exact .inl (inert_of_mem_toDigits hc)

/-- A figure stands for itself, and it is neither the letter nor a part of a word. -/
theorem Figure.sound {c : Char} (hc : Figure c) :
    isBlank c = false ∧ c.toLower = c ∧ c ≠ 'n' ∧ c ≠ 'e' ∧ c ≠ '(' ∧ c ≠ ')' := by
  rcases hc with hc | rfl | rfl
  · exact ⟨hc.isBlank, hc.toLower, hc.ne_variable, hc.ne_even, hc.ne_parenthesis⟩
  · decide
  · decide

theorem sound_of_mem_print {nth : Nth} {c : Char} (hc : c ∈ nth.print.toList) :
    isBlank c = false ∧ c.toLower = c ∧ c ≠ 'e' ∧ c ≠ '(' ∧ c ≠ ')' := by
  rw [toList_print, List.mem_append, List.mem_cons] at hc
  have hfigure : Figure c → isBlank c = false ∧ c.toLower = c ∧ c ≠ 'e' ∧ c ≠ '(' ∧ c ≠ ')' :=
    fun h => ⟨h.sound.1, h.sound.2.1, h.sound.2.2.2⟩
  rcases hc with hc | rfl | hc
  · exact hfigure (figure_of_mem_toString hc)
  · decide
  · exact hfigure (figure_of_mem_signedDigits hc)

/-- A step that is written out is never taken for a sign alone. -/
theorem readStep?_of_int32? {cs : List Char} {n : Int} (h : int32? cs = some n) :
    readStep? cs = some n := by
  fun_cases readStep? cs with
  | case1 => cases h
  | case2 => cases h
  | case3 => cases h
  | case4 => exact h

theorem readOffset?_signedDigits {n : Int} (hn : IsInt32 n) :
    readOffset? (signedDigits n) = some n := by
  have hsign : ∀ c, c = '+' ∨ c = '-' → (c == '+' || c == '-') = true := by
    rintro c (rfl | rfl) <;> rfl
  have hdigits : (Nat.toDigits 10 n.natAbs).isEmpty = false := by
    rw [List.isEmpty_eq_false_iff]
    exact Nat.toDigits_ne_nil
  have hread := int32?_signedDigits hn
  unfold signedDigits at hread ⊢
  rw [readOffset?, hdigits, if_pos, hread]
  rw [hsign _ (by split; exacts [.inr rfl, .inl rfl])]
  rfl

/-- The letter divides a formula: what stands in front of it is the step. -/
theorem readCompact?_letter {w : List Char} (hw : ∀ c ∈ w, Figure c) (rest : List Char) :
    readCompact? (w ++ 'n' :: rest) =
      (readStep? w).bind fun step => (readOffset? rest).bind fun offset => some ⟨step, offset⟩ := by
  -- The letter is in none of the two words but at the end of `even`, and no number has an `e`.
  have hodd : w ++ 'n' :: rest ≠ "odd".toList := by
    intro h
    have hmem : 'n' ∈ "odd".toList := h ▸ List.mem_append_right _ (.head _)
    exact absurd hmem (by decide)
  have heven : w ++ 'n' :: rest ≠ "even".toList := by
    intro h
    cases w with
    | nil => exact absurd (List.cons.inj h).1 (by decide)
    | cons c cs => exact (hw c (.head cs)).sound.2.2.2.1 (List.cons.inj h).1
  have hletter : ∀ c ∈ w, (c != 'n') = true := fun c hc => bne_iff_ne.2 (hw c hc).sound.2.2.1
  have hdrop : (w ++ 'n' :: rest).dropWhile (· != 'n') = 'n' :: rest := by
    rw [List.dropWhile_append_of_pos hletter]
    rfl
  have htake : (w ++ 'n' :: rest).takeWhile (· != 'n') = w := by
    rw [List.takeWhile_append_of_pos hletter]
    simp
  rw [readCompact?, if_neg (by simpa using hodd), if_neg (by simpa using heven), if_neg (by simp),
    hdrop]
  simp only [htake]
  rfl

/-- **A formula is read as the step and the offset that it was written for.** -/
theorem read?_print {nth : Nth} (hstep : IsInt32 nth.step) (hoffset : IsInt32 nth.offset) :
    read? nth.print.toList = some nth := by
  rw [read?_of_forall fun c hc => ⟨(sound_of_mem_print hc).1, (sound_of_mem_print hc).2.1⟩,
    toList_print, readCompact?_letter fun c =>
    figure_of_mem_toString, readStep?_of_int32? (int32?_toString hstep),
    readOffset?_signedDigits hoffset]
  rfl

end Selector.Nth

end UniqueSelector
