import UniqueSelector.Proofs.Combinations
import Mathlib.Algebra.BigOperators.Group.List.Lemmas
import Mathlib.Algebra.BigOperators.Ring.List
import Mathlib.Algebra.Order.BigOperators.GroupWithZero.List
import Mathlib.Algebra.Order.Ring.Nat

/-!
# Choices — the odometer meets every combination once

One candidate is chosen from each level, and the last level varies fastest. The row of the odometer
is exactly this list of choices, in this order; there are as many as the product of the sizes.
-/

namespace UniqueSelector

/-! ## 1. Choosing from each level -/

/-- One candidate from each level, in all ways; the last level varies fastest. -/
def choices : List Level → List Path
  | [] => [[]]
  | level :: stack => level.flatMap fun c => (choices stack).map (c :: ·)

theorem mem_choices {stack : List Level} {path : Path} :
    path ∈ choices stack ↔ List.Forall₂ (fun c level => c ∈ level) path stack := by
  induction stack generalizing path with
  | nil => rw [choices, List.mem_singleton, List.forall₂_nil_right_iff]
  | cons level stack ih =>
    rw [choices, List.mem_flatMap, List.forall₂_cons_right_iff]
    constructor
    · rintro ⟨c, hc, hpath⟩
      obtain ⟨rest, hrest, rfl⟩ := List.mem_map.1 hpath
      exact ⟨c, rest, hc, ih.1 hrest, rfl⟩
    · rintro ⟨c, rest, hc, hrest, rfl⟩
      exact ⟨c, hc, List.mem_map.2 ⟨rest, ih.2 hrest, rfl⟩⟩

theorem length_choices (stack : List Level) :
    (choices stack).length = (stack.map List.length).prod := by
  induction stack with
  | nil => rfl
  | cons level stack ih =>
    rw [choices, List.length_flatMap, List.map_cons, List.prod_cons, ← ih]
    simp

theorem choices_eq_nil {stack : List Level} (h : [] ∈ stack) : choices stack = [] := by
  rw [← List.length_eq_zero_iff, length_choices, List.prod_eq_zero]
  exact List.mem_map.2 ⟨[], h, rfl⟩

/-- If each level has a candidate of some kind, then some choice consists of such candidates. -/
theorem exists_mem_choices {stack : List Level} (good : Nat → Candidate → Prop)
    (h : ∀ l level, stack[l]? = some level → ∃ c ∈ level, good l c) :
    ∃ path ∈ choices stack, ∀ l c, path[l]? = some c → good l c := by
  induction stack generalizing good with
  | nil => exact ⟨[], .head _, fun l c hc => by cases hc⟩
  | cons level stack ih =>
    obtain ⟨c, hc, hgood⟩ := h 0 level rfl
    obtain ⟨path, hpath, hrest⟩ := ih (fun l => good (l + 1)) fun l level hl => h (l + 1) level hl
    refine ⟨c :: path, mem_choices.2 (.cons hc (mem_choices.1 hpath)), fun l d hd => ?_⟩
    cases l with
    | zero =>
      cases hd
      exact hgood
    | succ l => exact hrest l d hd

/-- A choice from the first levels can be carried on through the others if none of them is empty. -/
theorem exists_append_mem_choices {below above : List Level} (h : ∀ level ∈ above, level ≠ [])
    {path : Path} (hpath : path ∈ choices below) :
    ∃ rest, path ++ rest ∈ choices (below ++ above) := by
  have hrest : ∃ rest ∈ choices above, ∀ (l : Nat) (c : Candidate), rest[l]? = some c → True := by
    apply exists_mem_choices
    intro l level hl
    obtain ⟨c, hc⟩ := List.exists_mem_of_ne_nil level (h level (List.mem_of_getElem? hl))
    exact ⟨c, hc, trivial⟩
  obtain ⟨rest, hrest, -⟩ := hrest
  exact ⟨rest, mem_choices.2 (List.rel_append (mem_choices.1 hpath) (mem_choices.1 hrest))⟩

/-- Smaller levels give fewer choices. -/
theorem choices_subset {stack larger : List Level} (h : List.Forall₂ (· ⊆ ·) stack larger) :
    choices stack ⊆ choices larger := by
  intro path hpath
  rw [mem_choices] at hpath ⊢
  induction h generalizing path with
  | nil => exact hpath
  | cons hlevel _ ih =>
    cases hpath with
    | cons hc hrest => exact .cons (hlevel hc) (ih hrest)

/-! ## 2. The row of the odometer -/

namespace Odometer

/-- The choices from the place `indices` on. -/
def ahead : List Level → List Nat → List Path
  | level :: stack, i :: indices =>
    -- First what the levels behind still have to come, then the later candidates of this one.
    ((level[i]?).toList.flatMap fun c => (ahead stack indices).map (c :: ·)) ++
      (level.drop (i + 1)).flatMap fun c => (choices stack).map (c :: ·)
  | _, _ => [[]]

theorem ahead_zeros {stack : List Level} {indices : List Nat} (h : Valid stack indices) :
    ahead stack (indices.map fun _ => 0) = choices stack := by
  induction h with
  | nil => rfl
  | @cons level i stack indices hi hrest ih =>
    cases level with
    | nil => exact absurd hi (Nat.not_lt_zero i)
    | cons c level =>
      rw [List.map_cons, ahead, ih, List.getElem?_cons_zero, choices, List.flatMap_cons]
      simp

/-- What comes is the present combination, and then what comes from the next place on. -/
theorem ahead_eq {stack : List Level} {indices : List Nat} (h : Valid stack indices) :
    ahead stack indices = select stack indices ::
      ((Odometer.advance stack indices).map (ahead stack)).getD [] := by
  induction h with
  | nil => rfl
  | @cons level i stack indices hi hrest ih =>
    rw [ahead, ih, List.getElem?_eq_getElem hi, select_cons hi, Odometer.advance]
    cases hinner : Odometer.advance stack indices with
    | some inner => simp [ahead, hi]
    | none =>
      -- The levels behind are through, so the next candidate of this level begins with all
      -- their choices.
      by_cases hturn : i + 1 < level.length
      · have hzeros := ahead_zeros hrest
        rw [if_pos hturn, List.drop_eq_getElem_cons hturn, List.flatMap_cons, Option.map_some,
          Option.getD_some, ahead, hzeros, List.getElem?_eq_getElem hturn]
        simp
      · rw [if_neg hturn, List.drop_eq_nil_of_le (Nat.le_of_not_lt hturn)]
        simp

theorem collect_eq {n : Nat} {o : Odometer} (ho : ∀ is ∈ o.indices, Valid o.stack is)
    (paths : Array Path) :
    (collect n o paths).1.toList = paths.toList ++
      (((o.indices.map (ahead o.stack)).getD []).take n) := by
  induction n generalizing o paths with
  | zero => simp [collect]
  | succ n ih =>
    rw [collect, next?]
    cases hindices : o.indices with
    | none => simp
    | some is =>
      have hvalid := ho is hindices
      have hnext : ∀ js ∈ Odometer.advance o.stack is, Valid o.stack js :=
        fun js hjs => hvalid.advance hjs
      have hrest := ih (o := { o with indices := Odometer.advance o.stack is }) hnext
        (paths.push (select o.stack is))
      show (collect n { o with indices := Odometer.advance o.stack is } _).1.toList = _
      rw [hrest, Option.map_some, Option.getD_some, ahead_eq hvalid]
      simp

end Odometer

/-- **The odometer runs through all choices**, each once and in order. -/
theorem combinations_eq_choices (stack : List Level) : combinations stack = choices stack := by
  rw [combinations, Odometer.run, Odometer.start_eq]
  by_cases hempty : [] ∈ stack
  · -- Without a first place nothing is met, and there is nothing to choose.
    rw [if_pos hempty, choices_eq_nil hempty, Odometer.collect_eq fun is his => by cases his]
    exact List.take_nil
  · have hvalid : Odometer.Valid stack (stack.map fun _ => 0) :=
      Odometer.valid_zeros fun level hlevel hnil => hempty (hnil ▸ hlevel)
    have hindices : ∀ is ∈ some (stack.map fun _ => 0), Odometer.Valid stack is := fun is his =>
      Option.some.inj his ▸ hvalid
    have hzeros := Odometer.ahead_zeros hvalid
    rw [List.map_map] at hzeros
    have hcount : (stack.map List.length).foldl (· * ·) 1 = (choices stack).length := by
      rw [length_choices, List.prod_eq_foldl]
    rw [if_neg hempty, Odometer.collect_eq hindices]
    show [] ++ (Odometer.ahead stack (stack.map fun _ => 0)).take _ = _
    rw [List.nil_append, show (stack.map fun _ => 0) =
      stack.map ((fun _ => 0) ∘ fun _ => 0) from rfl, hzeros, hcount, List.take_length]

/-! ## 3. How many -/

/-- Past the largest count there is no total, whatever sizes follow. -/
theorem foldl_countOfSizes_none (sizes : List Nat) :
    sizes.foldl (fun total size => total.bind fun n => if n * size ≤ maxCount then
        some (n * size) else none) none =
      none := by
  induction sizes with
  | nil => rfl
  | cons size sizes ih => exact ih

/-- Without an empty level the total is the product, as long as that is no larger than the
largest count. -/
theorem foldl_countOfSizes {sizes : List Nat} (h : ∀ size ∈ sizes, 0 < size) {n : Nat}
    (hn : n ≤ maxCount) :
    sizes.foldl (fun total size => total.bind fun n => if n * size ≤ maxCount then
        some (n * size) else none)
      (some n) = if n * sizes.prod ≤ maxCount then some (n * sizes.prod) else none := by
  induction sizes generalizing n with
  | nil => rw [List.foldl_nil, List.prod_nil, Nat.mul_one, if_pos hn]
  | cons size sizes ih =>
    have hrest : ∀ size ∈ sizes, 0 < size := fun size hsize => h size (.tail _ hsize)
    rw [List.foldl_cons, List.prod_cons, ← Nat.mul_assoc, Option.bind_some]
    by_cases hsize : n * size ≤ maxCount
    · rw [if_pos hsize, ih hrest hsize]
    · -- The sizes that follow do not bring the product back.
      have hlarge : ¬n * size * sizes.prod ≤ maxCount := by
        have hle := Nat.le_mul_of_pos_right (n * size) (List.prod_pos hrest)
        omega
      rw [if_neg hsize, if_neg hlarge, foldl_countOfSizes_none]

/-- **The count is the product of the sizes**, up to the largest count. -/
theorem countOfSizes_eq {sizes : List Nat} (h : ∀ size ∈ sizes, 0 < size) :
    countOfSizes sizes = min sizes.prod maxCount := by
  rw [countOfSizes, foldl_countOfSizes h (by decide), Nat.one_mul]
  split
  · next hle => exact (Nat.min_eq_left hle).symm
  · next hlt => exact (Nat.min_eq_right (Nat.le_of_not_le hlt)).symm

theorem length_pos_of_mem_map {stack : List Level} (h : ∀ level ∈ stack, level ≠ []) :
    ∀ size ∈ stack.map List.length, 0 < size := by
  intro size hsize
  obtain ⟨level, hlevel, rfl⟩ := List.mem_map.1 hsize
  exact List.length_pos_of_ne_nil (h level hlevel)

theorem combinationCount_eq {stack : List Level} (h : ∀ level ∈ stack, level ≠ []) :
    combinationCount stack = min (stack.map List.length).prod maxCount :=
  countOfSizes_eq (length_pos_of_mem_map h)

/-- With more levels there are no fewer combinations. -/
theorem combinationCount_le_append {stack above : List Level}
    (h : ∀ level ∈ stack ++ above, level ≠ []) :
    combinationCount stack ≤ combinationCount (stack ++ above) := by
  have hstack : ∀ level ∈ stack, level ≠ [] :=
    fun level hlevel => h level (List.mem_append_left above hlevel)
  have habove : ∀ level ∈ above, level ≠ [] :=
    fun level hlevel => h level (List.mem_append_right stack hlevel)
  rw [combinationCount_eq hstack, combinationCount_eq h, List.map_append, List.prod_append]
  have hprod := Nat.le_mul_of_pos_right (stack.map List.length).prod
    (List.prod_pos (length_pos_of_mem_map habove))
  omega

/-- The first levels have no more combinations than all of them, if no level is empty. -/
theorem combinationCount_take_le {stack : List Level} (h : ∀ level ∈ stack, level ≠ []) (n : Nat) :
    combinationCount (stack.take n) ≤ (stack.map List.length).prod := by
  have hsplit : ∀ level ∈ stack.take n ++ stack.drop n, level ≠ [] := by
    rw [List.take_append_drop]
    exact h
  calc combinationCount (stack.take n)
    _ ≤ combinationCount (stack.take n ++ stack.drop n) := combinationCount_le_append hsplit
    _ = min (stack.map List.length).prod maxCount := by
      rw [List.take_append_drop, combinationCount_eq h]
    _ ≤ (stack.map List.length).prod := Nat.min_le_left _ _

/-- If there is one combination at most, each level has one candidate. -/
theorem length_of_combinationCount_le_one {stack : List Level} (h : ∀ level ∈ stack, level ≠ [])
    (hcount : combinationCount stack ≤ 1) {level : Level} (hlevel : level ∈ stack) :
    level.length = 1 := by
  rw [combinationCount_eq h] at hcount
  have hprod : (stack.map List.length).prod = 1 := by
    have hmax : 1 < maxCount := by decide
    have hone := List.prod_pos (length_pos_of_mem_map h)
    omega
  have hdvd : level.length ∣ (stack.map List.length).prod :=
    List.dvd_prod (List.mem_map.2 ⟨level, hlevel, rfl⟩)
  rw [hprod] at hdvd
  exact Nat.dvd_one.1 hdvd

end UniqueSelector
