import UniqueSelector.Proofs.Ranked

/-!
# Turns — one call of the odometer after another

A turn leads from one place to the next in lexicographic order, and from the last place to the end
of the row. So the calls meet each place once, and nothing from then on.
-/

namespace UniqueSelector

namespace Odometer

variable {stack : List Level} {is js next : List Nat}

/-! ## 1. One turn -/

/-- No place comes before the first one. -/
theorem not_lt_zeros (h : Valid stack is) : ¬is < is.map fun _ => 0 := by
  induction h with
  | nil => exact List.lt_irrefl []
  | @cons level i stack is hi hrest ih =>
    rw [List.map_cons, List.cons_lt_cons_iff]
    rintro (hlt | ⟨-, hlt⟩)
    · exact Nat.not_lt_zero i hlt
    · exact ih hlt

/-- Where no turn is possible any more, no place is behind. -/
theorem not_lt_of_advance_none (his : Valid stack is) (hend : Odometer.advance stack is = none)
    (hjs : Valid stack js) : ¬is < js := by
  induction his generalizing js with
  | nil =>
    cases hjs
    exact List.lt_irrefl []
  | @cons level i stack is hi hrest ih =>
    cases hjs with
    | @cons _ j _ js hj hjs =>
      rw [Odometer.advance] at hend
      cases hinner : Odometer.advance stack is with
      | some inner =>
        rw [hinner] at hend
        cases hend
      | none =>
        rw [hinner] at hend
        dsimp only at hend
        split at hend
        · cases hend
        · next hturn =>
          rw [List.cons_lt_cons_iff]
          rintro (hlt | ⟨-, hlt⟩)
          · omega
          · exact ih hinner hjs hlt

/-- **A turn leads to the next place**: to one behind, with none in between. -/
theorem next_of_advance (his : Valid stack is) (hnext : Odometer.advance stack is = some next) :
    is < next ∧ ∀ js, Valid stack js → is < js → ¬js < next := by
  induction his generalizing next with
  | nil => cases hnext
  | @cons level i stack is hi hrest ih =>
    rw [Odometer.advance] at hnext
    cases hinner : Odometer.advance stack is with
    | some inner =>
      -- The levels behind turn among themselves.
      rw [hinner] at hnext
      cases hnext
      obtain ⟨hlt, hleast⟩ := ih hinner
      refine ⟨List.cons_lt_cons_iff.2 (.inr ⟨rfl, hlt⟩), fun js hjs hbehind hbefore => ?_⟩
      cases hjs with
      | @cons _ j _ js hj hjs =>
        rw [List.cons_lt_cons_iff] at hbehind hbefore
        have hij : i = j := by omega
        subst hij
        exact hleast js hjs (hbehind.resolve_left (Nat.lt_irrefl i)).2
          (hbefore.resolve_left (Nat.lt_irrefl i)).2
    | none =>
      -- They are through, so nothing behind has the same index here, and they start again at the
      -- next one.
      rw [hinner] at hnext
      dsimp only at hnext
      split at hnext
      · cases hnext
        refine ⟨List.cons_lt_cons_iff.2 (.inl (Nat.lt_succ_self i)),
          fun js hjs hbehind hbefore => ?_⟩
        cases hjs with
        | @cons _ j _ js hj hjs =>
          rw [List.cons_lt_cons_iff] at hbehind hbefore
          have hij : i < j :=
            hbehind.resolve_right fun hsame => not_lt_of_advance_none hrest hinner hjs hsame.2
          have hsame := hbefore.resolve_left (Nat.not_lt.2 hij)
          have hzeros : (is.map fun _ => 0) = js.map fun _ => 0 := by
            rw [List.map_const', List.map_const', ← hrest.length_eq, ← hjs.length_eq]
          rw [hzeros] at hsame
          exact not_lt_zeros hjs hsame.2
      · cases hnext

/-- A turn goes on by one in the row of all places. -/
theorem advance_eq_getElem? {n : Nat} (h : (places stack)[n]? = some is) :
    Odometer.advance stack is = (places stack)[n + 1]? := by
  have hvalid := mem_places.1 (List.mem_of_getElem? h)
  have hrow := List.pairwise_iff_getElem.1 (pairwise_places stack)
  obtain ⟨hn, rfl⟩ := List.getElem?_eq_some_iff.1 h
  cases hnext : Odometer.advance stack (places stack)[n] with
  | none =>
    rw [eq_comm, List.getElem?_eq_none_iff, ← Nat.not_lt]
    intro hlast
    exact not_lt_of_advance_none hvalid hnext (mem_places.1 (List.getElem_mem hlast))
      (hrow n (n + 1) hn hlast (by omega))
  | some next =>
    obtain ⟨hlt, hleast⟩ := next_of_advance hvalid hnext
    obtain ⟨m, hm, rfl⟩ := List.getElem_of_mem (mem_places.2 (hvalid.advance hnext))
    -- The next place is behind this one in the row, and nothing is in between.
    have hnm : n < m := by
      by_contra hle
      rcases Nat.lt_or_eq_of_le (Nat.le_of_not_lt hle) with hlt' | rfl
      · exact List.lt_irrefl _ (List.lt_trans hlt (hrow m n hm hn hlt'))
      · exact List.lt_irrefl _ hlt
    have hm' : m = n + 1 := by
      by_contra hne
      have hbetween : n + 1 < m := by omega
      have hn' : n + 1 < (places stack).length := Nat.lt_trans hbetween hm
      exact hleast _ (mem_places.1 (List.getElem_mem hn')) (hrow n (n + 1) hn hn' (by omega))
        (hrow (n + 1) m hn' hm hbetween)
    subst hm'
    exact (List.getElem?_eq_getElem hm).symm

/-! ## 2. All calls -/

/-- One call: the path at the place, if the row has not ended, and the place behind. -/
def call (o : Odometer) : Option Path × Odometer :=
  match o.next? with
  | some (path, behind) => (some path, behind)
  | none => (none, o)

/-- Where the odometer stands after `n` calls. -/
def after (stack : List Level) : (n : Nat) → Odometer
  | 0 => start stack
  | n + 1 => (after stack n).call.2

theorem call_eq (stack : List Level) (indices : Option (List Nat)) :
    call ⟨stack, indices⟩ =
      (indices.map (select stack), ⟨stack, indices.bind (Odometer.advance stack)⟩) := by
  cases indices <;> rfl

theorem length_places (stack : List Level) :
    (places stack).length = (stack.map List.length).prod := by
  rw [← length_choices, ← map_select_places, List.length_map]

theorem places_eq_nil (h : [] ∈ stack) : places stack = [] := by
  rw [← List.map_eq_nil_iff (f := select stack), map_select_places, choices_eq_nil h]

/-- The row of places begins with all indices at zero. -/
theorem exists_places_cons (h : ∀ level ∈ stack, level ≠ []) :
    ∃ rest, places stack = (stack.map fun _ => 0) :: rest := by
  induction stack with
  | nil => exact ⟨[], rfl⟩
  | cons level stack ih =>
    obtain ⟨rest, hrest⟩ := ih fun level hlevel => h level (.tail _ hlevel)
    obtain ⟨c, level, rfl⟩ := List.exists_cons_of_ne_nil (h level (.head _))
    rw [places, List.length_cons, List.range_succ_eq_map, List.flatMap_cons, hrest]
    exact ⟨_, rfl⟩

theorem start_eq_getElem? (stack : List Level) : start stack = ⟨stack, (places stack)[0]?⟩ := by
  rw [start_eq]
  by_cases hempty : [] ∈ stack
  · rw [if_pos hempty, places_eq_nil hempty]
    rfl
  · obtain ⟨rest, hrest⟩ := exists_places_cons fun level hlevel hnil => hempty (hnil ▸ hlevel)
    rw [if_neg hempty, hrest]
    rfl

/-- **After `n` calls the odometer stands at place number `n`**, or at the end if there are no
more places. -/
theorem after_eq (stack : List Level) (n : Nat) : after stack n = ⟨stack, (places stack)[n]?⟩ := by
  induction n with
  | zero => exact start_eq_getElem? stack
  | succ n ih =>
    rw [after, ih, call_eq]
    show Odometer.mk stack _ = _
    congr 1
    cases hplace : (places stack)[n]? with
    | none =>
      have hlength := List.getElem?_eq_none_iff.1 hplace
      exact (List.getElem?_eq_none_iff.2 (Nat.le_succ_of_le hlength)).symm
    | some is => exact advance_eq_getElem? hplace

/-- At a place each index finds a candidate in its level. -/
theorem map_select_of_valid (h : Valid stack is) :
    (select stack is).map some = List.zipWith (fun level i => level[i]?) stack is := by
  induction h with
  | nil => rfl
  | @cons level i stack is hi hrest ih =>
    rw [select_cons hi, List.map_cons, ih, List.zipWith_cons_cons, List.getElem?_eq_getElem hi]

/-- **The calls of an odometer give each choice from the levels once, and then nothing any more.**
The places are the choices of an index into each level, in lexicographic order, so the first index
varies slowest; call number `n` gives the candidates at place number `n`, and no index is ever
outside of its level. A stack without levels gives the empty path once, and a stack with an empty
level gives nothing. -/
theorem call_after (stack : List Level) :
    ((places stack).Pairwise (· < ·) ∧ ∀ is, is ∈ places stack ↔ Valid stack is) ∧
    (∀ n, (after stack n).indices = (places stack)[n]? ∧
      (after stack n).call.1 = (places stack)[n]?.map (select stack)) ∧
    (∀ n is, (after stack n).indices = some is → is.length = stack.length ∧
      List.zipWith (fun level i => level[i]?) stack is = (select stack is).map some) ∧
    (∀ n, (after stack n).call.1 = none ↔ (stack.map List.length).prod ≤ n) ∧
    combinations stack = (places stack).map (select stack) ∧
    (stack = [] → ∀ n, (after stack n).call.1 = if n = 0 then some [] else none) ∧
    ([] ∈ stack → ∀ n, (after stack n).call.1 = none) := by
  have hindices : ∀ n, (after stack n).indices = (places stack)[n]? := fun n => by rw [after_eq]
  have hcall : ∀ n, (after stack n).call.1 = (places stack)[n]?.map (select stack) := fun n => by
    rw [after_eq, call_eq]
  refine ⟨⟨pairwise_places stack, fun is => mem_places⟩, fun n => ⟨hindices n, hcall n⟩,
    fun n is his => ?_, fun n => ?_, ?_, ?_, fun hempty n => ?_⟩
  · rw [hindices] at his
    have hvalid := mem_places.1 (List.mem_of_getElem? his)
    exact ⟨hvalid.length_eq.symm, (map_select_of_valid hvalid).symm⟩
  · rw [hcall, Option.map_eq_none_iff, List.getElem?_eq_none_iff, length_places]
  · rw [map_select_places, combinations_eq_choices]
  · rintro rfl n
    rw [hcall]
    cases n with
    | zero => rfl
    | succ n => rfl
  · rw [hcall, places_eq_nil hempty]
    rfl

end Odometer

/-! ## 3. How many calls -/

/-- Once the total is zero it stays there. -/
theorem foldl_countOfSizes_zero (sizes : List Nat) :
    sizes.foldl (fun total size => total.bind fun n => if n * size ≤ maxCount then
        some (n * size) else none)
      (some 0) = some 0 := by
  induction sizes with
  | nil => rfl
  | cons size sizes ih =>
    rw [List.foldl_cons, Option.bind_some, Nat.zero_mul, if_pos (Nat.zero_le maxCount)]
    exact ih

/-- An empty level brings the total to zero, unless it is past the largest count by then. -/
theorem countOfSizes_append_zero {before : List Nat} (h : ∀ size ∈ before, 0 < size)
    (behind : List Nat) :
    countOfSizes (before ++ 0 :: behind) = if before.prod ≤ maxCount then 0 else maxCount := by
  rw [countOfSizes, List.foldl_append, List.foldl_cons, foldl_countOfSizes h (by decide),
    Nat.one_mul]
  split
  · rw [Option.bind_some, Nat.mul_zero, if_pos (Nat.zero_le maxCount), foldl_countOfSizes_zero]
    rfl
  · rw [Option.bind_none, foldl_countOfSizes_none]
    rfl

/-- How many choices there are from the levels ahead of the first empty one. -/
def choicesAhead (stack : List Level) : Nat :=
  ((stack.takeWhile fun level => !level.isEmpty).map List.length).prod

theorem choicesAhead_append {before : List Level} (h : ∀ level ∈ before, level ≠ [])
    (behind : List Level) :
    choicesAhead (before ++ [] :: behind) = (before.map List.length).prod := by
  have hbefore : ∀ level ∈ before, (!level.isEmpty) = true := fun level hlevel => by
    rw [Bool.not_eq_true', List.isEmpty_eq_false_iff]
    exact h level hlevel
  have hbehind : (([] : Level) :: behind).takeWhile (fun level => !level.isEmpty) = [] :=
    List.takeWhile_cons_of_neg (by decide)
  rw [choicesAhead, List.takeWhile_append_of_pos hbefore, hbehind, List.append_nil]

/-- With an empty level the count is zero or the largest count. -/
theorem combinationCount_of_mem_nil {stack : List Level} (h : [] ∈ stack) :
    combinationCount stack = if choicesAhead stack ≤ maxCount then 0 else maxCount := by
  obtain ⟨before, behind, rfl, hbefore⟩ := List.eq_append_cons_of_mem h
  have hne : ∀ level ∈ before, level ≠ [] := fun level hlevel hnil => hbefore (hnil ▸ hlevel)
  rw [choicesAhead_append hne, combinationCount, List.map_append, List.map_cons, List.length_nil]
  exact countOfSizes_append_zero (length_pos_of_mem_map hne) _

/-- **The count is the number of combinations up to the largest count, unless an empty level stands
behind levels with more choices than can be counted**: then the count is the largest one although
there is no combination. A level of an element is never empty, so the count is right for every stack
of a search. -/
theorem combinationCount_exact_iff (stack : List Level) :
    let paths := (combinations stack).length
    (combinationCount stack = min maxCount paths ↔ ([] ∈ stack → choicesAhead stack ≤ maxCount)) ∧
    ([] ∈ stack → maxCount < choicesAhead stack → combinationCount stack = maxCount ∧ paths = 0) ∧
    (∀ q : Quest, ∀ mode, stack <+: q.levels mode →
      combinationCount stack = min maxCount paths) := by
  intro paths
  have hpaths : paths = (stack.map List.length).prod := by
    rw [← length_choices, ← combinations_eq_choices]
  have hfull : (∀ level ∈ stack, level ≠ []) → combinationCount stack = min maxCount paths :=
    fun hne => by
    rw [combinationCount_eq hne, hpaths, Nat.min_comm]
  have hnone : [] ∈ stack → paths = 0 := fun hempty => by
    rw [hpaths, List.prod_eq_zero (List.mem_map.2 ⟨[], hempty, rfl⟩)]
  refine ⟨?_, fun hempty hlarge => ⟨?_, hnone hempty⟩, fun q mode hbegins => ?_⟩
  · by_cases hempty : [] ∈ stack
    · rw [combinationCount_of_mem_nil hempty, hnone hempty, Nat.min_zero]
      split
      · next hle => exact iff_of_true rfl fun _ => hle
      · next hlarge => exact iff_of_false (by decide) fun hle => hlarge (hle hempty)
    · exact iff_of_true (hfull fun level hlevel hnil => hempty (hnil ▸ hlevel)) fun h =>
        absurd h hempty
  · rw [combinationCount_of_mem_nil hempty, if_neg (Nat.not_le.2 hlarge)]
  · exact hfull fun level hlevel => Quest.levels_ne_nil (hbegins.subset hlevel)

/-- Sixty-four levels of two candidates have one choice more than can be counted, and an empty level
behind them leaves no combination at all. -/
theorem combinationCount_behind :
    let level : Level := [⟨"a", Cost.zero, 0⟩, ⟨"b", Cost.zero, 0⟩]
    let stack : List Level := List.replicate 64 level ++ [[]]
    combinationCount stack = maxCount ∧ combinations stack = [] := by
  intro level stack
  refine ⟨by decide +kernel, ?_⟩
  rw [combinations_eq_choices, choices_eq_nil (List.mem_append_right _ (.head _))]

end UniqueSelector
