import UniqueSelector.Synthesis.Path
import Mathlib.Tactic.Common
import Mathlib.Algebra.Order.Group.Nat

/-!
# Costs — sums that are rounded keep their order

Rounding keeps the order of numbers and changes nothing that is rounded already. So a sum of costs
does not get smaller when costs are added to it, and a part of a path costs no more than the whole.
The order is total, and equally placed costs are equal.
-/

namespace UniqueSelector

namespace Cost

/-! ## 1. Rounding -/

/-- The distance of two neighbours among the numbers that `n` may be rounded to. -/
def spacing (n : Nat) : Nat := 2 ^ (n.log2 + 1 - precision)

theorem spacing_pos (n : Nat) : 0 < spacing n := Nat.two_pow_pos _

theorem nearest_eq (n : Nat) : nearest n =
    if 2 * (n % spacing n) < spacing n ∨
      (2 * (n % spacing n) = spacing n ∧ n / spacing n % 2 = 0) then
      n / spacing n * spacing n else (n / spacing n + 1) * spacing n := rfl

theorem spacing_dvd_nearest (n : Nat) : spacing n ∣ nearest n := by
  rw [nearest_eq]
  split <;> exact Nat.dvd_mul_left _ _

theorem spacing_dvd_pow {n k : Nat} (h : n.log2 ≤ k) : spacing n ∣ 2 ^ k :=
  Nat.pow_dvd_pow 2 (by rw [precision]; omega)

/-- Rounding does not go beyond a number that may be the result. -/
theorem nearest_le {n b : Nat} (hb : spacing n ∣ b) (h : n ≤ b) : nearest n ≤ b := by
  obtain ⟨k, rfl⟩ := hb
  have hdiv := Nat.div_add_mod n (spacing n)
  have hmod := Nat.mod_lt n (spacing_pos n)
  rw [nearest_eq]
  split
  · rw [Nat.mul_comm]
    omega
  · next hup =>
    -- Rounding up leaves a rest, so `n` is not `b` itself.
    have hlt : n / spacing n < k := by
      by_contra hle
      have hmul := Nat.mul_le_mul_left (spacing n) (Nat.le_of_not_lt hle)
      have hpos := spacing_pos n
      omega
    rw [Nat.mul_comm]
    exact Nat.mul_le_mul_left _ hlt

theorem le_nearest {n b : Nat} (hb : spacing n ∣ b) (h : b ≤ n) : b ≤ nearest n := by
  obtain ⟨k, rfl⟩ := hb
  have hk : k ≤ n / spacing n := (Nat.le_div_iff_mul_le (spacing_pos n)).2 (Nat.mul_comm _ _ ▸ h)
  rw [nearest_eq]
  split
  · rw [Nat.mul_comm]
    exact Nat.mul_le_mul_right _ hk
  · rw [Nat.mul_comm]
    exact Nat.mul_le_mul_right _ (Nat.le_succ_of_le hk)

/-- Numbers with equally spaced neighbours keep their order. -/
theorem nearest_mono_of_spacing {m n : Nat} (h : m ≤ n) (hspacing : spacing m = spacing n) :
    nearest m ≤ nearest n := by
  rcases Nat.lt_or_eq_of_le (Nat.div_le_div_right h (c := spacing n)) with hlt | heq
  · have hm : nearest m ≤ (m / spacing m + 1) * spacing m := by
      rw [nearest_eq]
      split
      · exact Nat.mul_le_mul_right _ (Nat.le_succ _)
      · exact Nat.le_refl _
    have hn : n / spacing n * spacing n ≤ nearest n :=
      le_nearest (Nat.dvd_mul_left _ _) (Nat.div_mul_le_self n _)
    rw [hspacing] at hm
    exact Nat.le_trans hm (Nat.le_trans (Nat.mul_le_mul_right _ hlt) hn)
  · -- Both lie between the same two neighbours, and the larger one has the larger rest.
    have hmod : m % spacing n ≤ n % spacing n := by
      have hm := Nat.div_add_mod m (spacing n)
      have hn := Nat.div_add_mod n (spacing n)
      rw [heq] at hm
      omega
    rw [nearest_eq, nearest_eq, hspacing, heq]
    split
    · split
      · exact Nat.le_refl _
      · exact Nat.mul_le_mul_right _ (Nat.le_succ _)
    · next hup =>
      rw [if_neg (by omega)]

theorem nearest_mono {m n : Nat} (h : m ≤ n) : nearest m ≤ nearest n := by
  by_cases hm : m = 0
  · subst hm
    exact Nat.zero_le _
  have hn : n ≠ 0 := by omega
  by_cases hlog : m.log2 = n.log2
  · exact nearest_mono_of_spacing h (by rw [spacing, spacing, hlog])
  · -- A power of two lies between them, and neither is rounded beyond it.
    have hlt : m.log2 < n.log2 := by
      have hle := (Nat.le_log2 hn).2 (Nat.le_trans (Nat.log2_self_le hm) h)
      omega
    have hpow : m ≤ 2 ^ n.log2 := Nat.le_of_lt ((Nat.log2_lt hm).1 hlt)
    exact Nat.le_trans (nearest_le (spacing_dvd_pow (Nat.le_of_lt hlt)) hpow)
      (le_nearest (spacing_dvd_pow (Nat.le_refl _)) (Nat.log2_self_le hn))

theorem nearest_of_dvd {n : Nat} (h : spacing n ∣ n) : nearest n = n :=
  Nat.le_antisymm (nearest_le h (Nat.le_refl n)) (le_nearest h (Nat.le_refl n))

/-- What is rounded stays as it is. -/
theorem nearest_nearest (n : Nat) : nearest (nearest n) = nearest n := by
  by_cases hzero : nearest n = 0
  · rw [hzero]
    decide
  have hle : nearest n ≤ 2 ^ (n.log2 + 1) :=
    nearest_le (spacing_dvd_pow (Nat.le_succ _)) (Nat.le_of_lt Nat.lt_log2_self)
  apply nearest_of_dvd
  rcases Nat.lt_or_eq_of_le hle with hlt | heq
  · have hlog := (Nat.log2_lt hzero).2 hlt
    have hspacing : spacing (nearest n) ∣ spacing n := Nat.pow_dvd_pow 2 (by omega)
    exact Nat.dvd_trans hspacing (spacing_dvd_nearest n)
  · rw [heq]
    exact spacing_dvd_pow (by rw [Nat.log2_two_pow])

/-! ## 2. Order -/

theorem le_iff {a b : Cost} :
    a ≤ b ↔ a.rank.1 < b.rank.1 ∨ (a.rank.1 = b.rank.1 ∧ a.rank.2 ≤ b.rank.2) := Iff.rfl

theorem le_refl (a : Cost) : a ≤ a := .inr ⟨rfl, Int.le_refl _⟩

theorem le_trans {a b c : Cost} (hab : a ≤ b) (hbc : b ≤ c) : a ≤ c := by
  rw [le_iff] at hab hbc ⊢
  omega

theorem le_total (a b : Cost) : a ≤ b ∨ b ≤ a := by
  rw [le_iff, le_iff]
  omega

theorem le_antisymm {a b : Cost} (hab : a ≤ b) (hba : b ≤ a) : a = b := by
  rw [le_iff] at hab hba
  have hrank : a.rank.1 = b.rank.1 ∧ a.rank.2 = b.rank.2 := by omega
  -- The signs and the kinds are told apart by the ranks.
  rcases a with ⟨_ | _, m⟩ | ⟨_ | _⟩ | _ <;> rcases b with ⟨_ | _, n⟩ | ⟨_ | _⟩ | _ <;>
    simp [rank] at hrank ⊢ <;> omega

section keys

variable (key : α → Cost)

/-- What is sorted by a cost is sorted transitively. -/
theorem decide_le_trans (a b c : α) (hab : decide (key a ≤ key b) = true)
    (hbc : decide (key b ≤ key c) = true) :
    decide (key a ≤ key c) = true :=
  decide_eq_true (le_trans (of_decide_eq_true hab) (of_decide_eq_true hbc))

theorem decide_le_total (a b : α) : (decide (key a ≤ key b) || decide (key b ≤ key a)) = true := by
  rw [Bool.or_eq_true, decide_eq_true_eq, decide_eq_true_eq]
  exact le_total _ _

end keys

/-! ## 3. Sums -/

/-- What a sum of costs that are not negative can come to. -/
inductive Total : Cost → Prop where
  | start : Total (.finite true 0)
  | finite {n : Nat} (hround : nearest n = n) : Total (.finite false n)
  | infinite : Total (.infinite false)

theorem precision_le_limit : 2 ^ precision ≤ limit := by
  have hexponent : precision ≤ 1027 := by decide
  unfold limit
  generalize 1027 = k at hexponent ⊢
  exact Nat.pow_le_pow_right Nat.two_pos hexponent

theorem limit_pos : 0 < limit := Nat.lt_of_lt_of_le (Nat.two_pow_pos precision) precision_le_limit

theorem ofEighths_natCast (n : Nat) :
    ofEighths n = if nearest n < limit then .finite false (nearest n) else .infinite false := by
  have hsign : decide ((n : Int) < 0) = false := decide_eq_false (by omega)
  rw [ofEighths, Int.natAbs_natCast, hsign]

theorem total_ofEighths (n : Nat) : Total (ofEighths n) := by
  rw [ofEighths_natCast]
  split
  · exact .finite (nearest_nearest n)
  · exact .infinite

theorem finite_le_finite {m n : Nat} : Cost.finite false m ≤ Cost.finite false n ↔ m ≤ n := by
  rw [le_iff]
  simp [rank]

theorem le_infinite {a : Cost} (h : Total a) : a ≤ .infinite false := by
  cases h with
  | start => exact .inl Int.zero_lt_one
  | finite => exact .inl Int.zero_lt_one
  | infinite => exact le_refl _

theorem ofEighths_mono {m n : Nat} (h : m ≤ n) : ofEighths m ≤ ofEighths n := by
  have hround := nearest_mono h
  rw [ofEighths_natCast n]
  split
  · rw [ofEighths_natCast, if_pos (by omega)]
    exact finite_le_finite.2 hround
  · exact le_infinite (total_ofEighths m)

theorem ofEighths_add (m n : Nat) :
    Cost.finite false m + Cost.finite false n = ofEighths (m + n : Nat) := by
  show (if signed false m + signed false n = 0 then Cost.finite (false && false) 0
    else ofEighths (signed false m + signed false n)) = _
  have hsum : signed false m + signed false n = (m + n : Nat) := rfl
  rw [hsum]
  split
  · next hzero =>
    have hround : nearest 0 = 0 := by decide
    rw [Int.ofNat_eq_zero.1 hzero, ofEighths_natCast, hround, if_pos limit_pos, Bool.and_false]
  · rfl

/-- The first cost is rounded like any other; a cost of zero takes the sign away. -/
theorem start_add (n : Nat) :
    Cost.finite true 0 + Cost.finite false n = Cost.finite false 0 + Cost.finite false n := by
  show (if signed true 0 + signed false n = 0 then Cost.finite (true && false) 0
    else ofEighths (signed true 0 + signed false n)) = _
  rfl

variable {a b : Cost}

theorem Total.add (h : Total a) (n : Nat) : Total (a + .finite false n) := by
  cases h with
  | start =>
    rw [start_add, ofEighths_add]
    exact total_ofEighths _
  | finite =>
    rw [ofEighths_add]
    exact total_ofEighths _
  | infinite => exact .infinite

/-- A cost that is added makes nothing cheaper. -/
theorem Total.le_add (h : Total a) (n : Nat) : a ≤ a + .finite false n := by
  cases h with
  | start =>
    rw [start_add, ofEighths_add, ofEighths_natCast]
    split
    · exact .inr ⟨rfl, by simp [rank]⟩
    · exact .inl Int.zero_lt_one
  | @finite m hround =>
    rw [ofEighths_add, ofEighths_natCast]
    split
    · rw [finite_le_finite]
      calc m
        _ = nearest m := hround.symm
        _ ≤ nearest (m + n) := nearest_mono (Nat.le_add_right m n)
    · exact .inl Int.zero_lt_one
  | infinite => exact le_refl _

theorem Total.add_mono (ha : Total a) (hb : Total b) (hab : a ≤ b) (n : Nat) :
    a + .finite false n ≤ b + .finite false n := by
  cases hb with
  | infinite => exact le_infinite (ha.add n)
  | start =>
    cases ha with
    | start => exact le_refl _
    | finite => simp [le_iff, rank] at hab; omega
    | infinite => simp [le_iff, rank] at hab
  | finite =>
    cases ha with
    | start =>
      rw [start_add, ofEighths_add, ofEighths_add]
      exact ofEighths_mono (by omega)
    | finite =>
      rw [ofEighths_add, ofEighths_add]
      rw [finite_le_finite] at hab
      exact ofEighths_mono (by omega)
    | infinite => simp [le_iff, rank] at hab

/-- **A part of the costs comes to no more than the whole.** -/
theorem foldl_add_le {part whole : List Cost} (hsub : part.Sublist whole)
    (hcosts : ∀ c ∈ whole, ∃ n, c = .finite false n) (ha : Total a) (hb : Total b) (hab : a ≤ b) :
    part.foldl (· + ·) a ≤ whole.foldl (· + ·) b := by
  induction hsub generalizing a b with
  | slnil => exact hab
  | cons c hsub ih =>
    obtain ⟨n, rfl⟩ := hcosts c (.head _)
    exact ih (fun c hc => hcosts c (.tail _ hc)) ha (hb.add n) (le_trans hab (hb.le_add n))
  | cons_cons c hsub ih =>
    obtain ⟨n, rfl⟩ := hcosts c (.head _)
    exact ih (fun c hc => hcosts c (.tail _ hc)) (ha.add n) (hb.add n) (ha.add_mono hb hab n)

end Cost

/-! ## 4. Paths -/

namespace Path

/-- Leaving out candidates makes no path dearer. -/
theorem cost_le_of_sublist {path shorter : Path} (hsub : shorter.Sublist path)
    (hcosts : ∀ c ∈ path, ∃ n, c.cost = .finite false n) : cost shorter ≤ cost path := by
  apply Cost.foldl_add_le (hsub.map Candidate.cost) _ .start .start (Cost.le_refl _)
  intro cost hcost
  obtain ⟨c, hc, rfl⟩ := List.mem_map.1 hcost
  exact hcosts c hc

/-- The first path in the order of costs is one of the cheapest. -/
theorem cost_le_of_sortByCost {paths rest : List Path} {best : Path}
    (h : sortByCost paths = best :: rest) :
    best ∈ paths ∧ ∀ path ∈ paths, cost best ≤ cost path := by
  have hmem : ∀ path, path ∈ best :: rest ↔ path ∈ paths := fun path => h ▸ List.mem_mergeSort
  refine ⟨(hmem best).1 (.head _), fun path hpath => ?_⟩
  have hsorted : (best :: rest).Pairwise fun a b => decide (cost a ≤ cost b) = true := by
    rw [← h]
    exact List.pairwise_mergeSort (Cost.decide_le_trans cost) (Cost.decide_le_total cost) paths
  rcases List.mem_cons.1 ((hmem path).2 hpath) with rfl | hrest
  · exact Cost.le_refl _
  · exact of_decide_eq_true (List.rel_of_pairwise_cons hsorted hrest)

end Path

end UniqueSelector
