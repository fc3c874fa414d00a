import UniqueSelector.Selector.Escape
import Mathlib.Tactic.IntervalCases

/-!
# Numerals — a number is read back from its digits

The digits that the escaper and the counter write are read by `numberOf` as the number they were
written for. A capital digit is told from a blank, a backslash and every sign.
-/

namespace UniqueSelector

/-! ## 1. Digits and their values -/

theorem mem_toDigits {b n : Nat} {c : Char} (hb : 1 < b) (hc : c ∈ Nat.toDigits b n) :
    ∃ d, d < b ∧ c = d.digitChar := by
  -- The last digit is taken off, as the digits of a number are built.
  induction n using Nat.base_induction b hb with
  | single m hm =>
    rw [Nat.toDigits_of_lt_base hm, List.mem_singleton] at hc
    exact ⟨m, hm, hc⟩
  | digit m k hk hm ih =>
    rw [← Nat.toDigits_append_toDigits hb hm hk, List.mem_append] at hc
    rcases hc with hc | hc
    · exact ih hc
    · rw [Nat.toDigits_of_lt_base hk, List.mem_singleton] at hc
      exact ⟨k, hk, hc⟩

theorem numberOf_append_singleton (base : Nat) (digits : List Char) (c : Char) :
    numberOf base (digits ++ [c]) = numberOf base digits * base + digitValue c := by
  rw [numberOf, List.foldl_append]
  rfl

/-- Digits may be shown in any way that keeps their values. -/
theorem numberOf_map_toDigits {b : Nat} (hb : 1 < b) (shown : Char → Char)
    (hshown : ∀ d, d < b → digitValue (shown d.digitChar) = d) (n : Nat) :
    numberOf b ((Nat.toDigits b n).map shown) = n := by
  induction n using Nat.base_induction b hb with
  | single m hm =>
    rw [Nat.toDigits_of_lt_base hm]
    show 0 * b + digitValue (shown m.digitChar) = m
    rw [hshown m hm, Nat.zero_mul, Nat.zero_add]
  | digit m k hk hm ih =>
    rw [← Nat.toDigits_append_toDigits hb hm hk, Nat.toDigits_of_lt_base hk, List.map_append,
      List.map_singleton, numberOf_append_singleton, ih, hshown k hk, Nat.mul_comm]

/-! ## 2. Capital digits -/

theorem digitValue_toUpper_digitChar {d : Nat} (h : d < 16) :
    digitValue d.digitChar.toUpper = d := by
  interval_cases d <;> decide

theorem isHexDigit_toUpper_digitChar {d : Nat} (h : d < 16) :
    isHexDigit d.digitChar.toUpper = true := by
  interval_cases d <;> decide

theorem numberOf_hexCapitals (n : Nat) : numberOf 16 (hexCapitals n) = n :=
  numberOf_map_toDigits (by decide) Char.toUpper (fun _ => digitValue_toUpper_digitChar) n

theorem hexCapitals_ne_nil (n : Nat) : hexCapitals n ≠ [] := by
  rw [hexCapitals, ne_eq, List.map_eq_nil_iff]
  exact Nat.toDigits_ne_nil

theorem hexCapitals_length_le {n k : Nat} (hk : 0 < k) (h : n < 16 ^ k) :
    (hexCapitals n).length ≤ k := by
  rw [hexCapitals, List.length_map]
  exact (Nat.length_toDigits_le_iff (by decide) hk).2 h

theorem isHexDigit_of_mem_hexCapitals {n : Nat} {c : Char} (hc : c ∈ hexCapitals n) :
    isHexDigit c = true := by
  obtain ⟨c', hc', rfl⟩ := List.mem_map.1 hc
  obtain ⟨d, hd, rfl⟩ := mem_toDigits (by decide) hc'
  exact isHexDigit_toUpper_digitChar hd

/-- The escaper knows its own digits. -/
theorem isHexCapital_of_mem_hexCapitals {n : Nat} {c : Char} (hc : c ∈ hexCapitals n) :
    Selector.isHexCapital c = true := by
  obtain ⟨c', hc', rfl⟩ := List.mem_map.1 hc
  obtain ⟨d, hd, rfl⟩ := mem_toDigits (by decide) hc'
  interval_cases d <;> decide

theorem hexCapitals_eq_cons (n : Nat) : ∃ d ds, hexCapitals n = d :: ds ∧ isHexDigit d = true := by
  obtain ⟨d, ds, hds⟩ := List.exists_cons_of_ne_nil (hexCapitals_ne_nil n)
  refine ⟨d, ds, hds, isHexDigit_of_mem_hexCapitals (n := n) ?_⟩
  rw [hds]
  exact List.mem_cons_self

/-! ## 3. Decimal numerals -/

theorem digitValue_digitChar {d : Nat} (h : d < 10) : digitValue d.digitChar = d := by
  interval_cases d <;> decide

theorem numberOf_toDigits (n : Nat) : numberOf 10 (Nat.toDigits 10 n) = n := by
  have h := numberOf_map_toDigits (b := 10) (by decide) id (fun _ => digitValue_digitChar) n
  rwa [List.map_id] at h

theorem natural?_toDigits (n : Nat) : natural? (Nat.toDigits 10 n) = some n := by
  have hall : (Nat.toDigits 10 n).all Char.isDigit = true :=
    List.all_eq_true.2 fun _ => Nat.isDigit_of_mem_toDigits (by decide) (by decide)
  rw [natural?, if_neg, numberOf_toDigits]
  simp [hall]

end UniqueSelector
