import UniqueSelector.Proofs.Widening

/-!
# Exhaustion — a search that gives up has tried every path

Where the settings allow all combinations of the widest mode, the search comes back with nothing
exactly if every choice from the levels of the whole way fits several elements. The narrower modes
choose among the same candidates, so they cannot help then.
-/

namespace UniqueSelector

/-! ## 1. Levels -/

theorem Element.candidates_ne_nil (e : Element) (s : Settings) : e.candidates s ≠ [] := by
  rw [candidates]
  split
  · exact List.cons_ne_nil _ _
  · next hne => exact fun h => hne h

namespace Level

variable {e : Element} {index : Option Nat} {distance : Nat} {s : Settings}

theorem subset_withCounted (level : Level) (index : Option Nat) :
    level ⊆ level.withCounted index := by
  cases index with
  | none => exact List.Subset.refl level
  | some i => exact List.subset_append_left _ _

theorem preferCounted_mem {level : Level} {c : Candidate} (hc : c ∈ level) (index : Option Nat) :
    preferCounted c index ∈ level.withCounted index := by
  cases index with
  | none => exact hc
  | some i =>
    rw [preferCounted]
    split
    · next hdispensable =>
      exact List.mem_append_right _ (List.mem_map.2 ⟨c, List.mem_filter.2 ⟨hc, hdispensable⟩, rfl⟩)
    · exact List.mem_append_left _ hc

theorem withCounted_sublist {level larger : Level} (h : level.Sublist larger) (index : Option Nat) :
    (level.withCounted index).Sublist (larger.withCounted index) := by
  cases index with
  | none => exact h
  | some i => exact h.append ((h.filter _).map _)

/-- A narrower mode keeps some of what a mode keeps, in the same order. -/
theorem ofCandidates_sublist (found : Level) (index : Option Nat) {mode narrower : Breadth}
    (h : mode.narrower = some narrower) :
    (ofCandidates found index narrower).Sublist (ofCandidates found index mode) := by
  cases mode with
  | all =>
    cases h
    exact withCounted_sublist (List.take_sublist 1 found) index
  | two =>
    cases h
    cases found with
    | nil => exact List.nil_sublist _
    | cons c found => exact List.singleton_sublist.2 (preferCounted_mem (.head _) index)
  | one => cases h

theorem build_sublist {mode narrower : Breadth} (h : mode.narrower = some narrower) :
    (build e index narrower distance s).Sublist (build e index mode distance s) :=
  (ofCandidates_sublist _ index h).map _

/-- Every mode keeps some of what the widest mode keeps. -/
theorem build_subset (mode : Breadth) :
    build e index mode distance s ⊆ build e index .all distance s := by
  have htwo : (build e index .two distance s).Sublist (build e index .all distance s) :=
    build_sublist rfl
  have hone : (build e index .one distance s).Sublist (build e index .two distance s) :=
    build_sublist rfl
  cases mode with
  | all => exact List.Subset.refl _
  | two => exact htwo.subset
  | one => exact (hone.trans htwo).subset

theorem build_ne_nil (mode : Breadth) : build e index mode distance s ≠ [] := by
  obtain ⟨c, found, hfound⟩ := List.exists_cons_of_ne_nil (e.candidates_ne_nil s)
  rw [build, hfound, ne_eq, List.map_eq_nil_iff]
  cases mode with
  | all => exact List.ne_nil_of_mem (subset_withCounted _ index (.head _))
  | two => exact List.ne_nil_of_mem (subset_withCounted _ index (.head _))
  | one => exact List.cons_ne_nil _ _

end Level

namespace Quest

variable {q : Quest} {mode : Breadth}

theorem levels_ne_nil {level : Level} (h : level ∈ q.levels mode) : level ≠ [] := by
  obtain ⟨e, index, d, rfl⟩ := exists_of_mem_levels h
  exact Level.build_ne_nil mode

theorem levelsAlong_subset (q : Quest) (mode : Breadth) (distance : Nat) (ids : List NodeId) :
    List.Forall₂ (· ⊆ ·) (q.levelsAlong mode distance ids) (q.levelsAlong .all distance ids) := by
  induction ids generalizing distance with
  | nil => exact .nil
  | cons id ids ih =>
    rw [levelsAlong, levelsAlong]
    cases q.document.element? id with
    | none => exact .nil
    | some e => exact .cons (Level.build_subset mode) (ih (distance + 1))

theorem levels_subset (q : Quest) (mode : Breadth) :
    List.Forall₂ (· ⊆ ·) (q.levels mode) (q.levels .all) :=
  q.levelsAlong_subset mode 0 q.way

/-- In every mode there is one level for each element on the way. -/
theorem length_levels_eq (q : Quest) (mode mode' : Breadth) :
    (q.levels mode).length = (q.levels mode').length :=
  (q.levels_subset mode).length_eq.trans (q.levels_subset mode').length_eq.symm

theorem choices_levels_subset (q : Quest) (mode : Breadth) :
    choices (q.levels mode) ⊆ choices (q.levels .all) :=
  choices_subset (q.levels_subset mode)

/-- The way begins at the target unless that is where it has to stop. -/
theorem getElem?_way_zero (h : q.stop ≠ some q.target) : q.way[0]? = some q.target := by
  rw [way, List.takeWhile_cons_of_pos (by simpa using Ne.symm h)]
  rfl

theorem way_ne_nil (h : q.stop ≠ some q.target) : q.way ≠ [] :=
  List.ne_nil_of_mem (List.mem_of_getElem? (getElem?_way_zero h))

theorem element_of_mem_way (htarget : q.document.isElement q.target = true) {id : NodeId}
    (h : id ∈ q.way) :
    q.document.isElement id = true := by
  obtain ⟨l, hl⟩ := List.mem_iff_getElem?.1 h
  exact element_of_way hl htarget

theorem length_levels (htarget : q.document.isElement q.target = true) (mode : Breadth) :
    (q.levels mode).length = q.way.length :=
  length_levelsAlong mode (fun _ hid => element_of_mem_way htarget hid) 0

/-- The level number `l` is that of the node number `l` of the way. -/
theorem getElem?_levels_of_way (htarget : q.document.isElement q.target = true) {l : Nat}
    {id : NodeId} {e : Element} (hid : q.way[l]? = some id)
    (he : q.document.element? id = some e) :
    (q.levels mode)[l]? = some (Level.build e (q.document.elementIndex id) mode l q.settings) := by
  rw [levels, getElem?_levelsAlong mode (fun _ hid => element_of_mem_way htarget hid), hid,
    Option.bind_some, he, Option.map_some, Nat.zero_add]

theorem own_of_mem_choices (htarget : q.document.isElement q.target = true) (hway : q.way ≠ [])
    {path : Path} (hpath : path ∈ choices (q.levels mode)) : q.Own path ∧ Gapless path := by
  have hne : (q.levels mode).take (q.levels mode).length ≠ [] := by
    rw [List.take_length, ← List.length_pos_iff, length_levels htarget, List.length_pos_iff]
    exact hway
  apply own_of_mem_combinations htarget hne
  rw [List.take_length, combinations_eq_choices]
  exact hpath

/-! ## 2. One mode -/

section shared

variable (hwell : q.document.WellFormed) (htarget : q.document.isElement q.target = true)
include hwell htarget

/-- If every choice from the whole way fits several elements, then so does every choice from a part
of it. -/
theorem shared_of_mem_choices_take (hshared : ∀ path ∈ choices (q.levels mode), q.Shared path)
    {n : Nat} (hne : (q.levels mode).take n ≠ []) {path : Path}
    (hpath : path ∈ choices ((q.levels mode).take n)) :
    q.Shared path := by
  have habove : ∀ level ∈ (q.levels mode).drop n, level ≠ [] := fun level hlevel =>
    levels_ne_nil (List.mem_of_mem_drop hlevel)
  obtain ⟨rest, hrest⟩ := exists_append_mem_choices habove hpath
  rw [List.take_append_drop] at hrest
  have hway : q.way ≠ [] := by
    rw [← List.length_pos_iff, ← length_levels htarget mode, List.length_pos_iff]
    exact fun hnil => hne (by rw [hnil, List.take_nil])
  have hlength : 0 < path.length := by
    rw [(mem_choices.1 hpath).length_eq]
    exact List.length_pos_of_ne_nil hne
  obtain ⟨hown, hgapless⟩ := own_of_mem_choices htarget hway hrest
  have htake := hown.shared_take hwell hgapless (hshared _ hrest) hlength
  rwa [List.take_left] at htake

theorem settle_climb_none_of_shared (hshared : ∀ path ∈ choices (q.levels mode), q.Shared path) :
    q.document.settle (q.climb mode) = .ok none := by
  apply settle_climb_of_fruitless
  intro n hne
  right
  intro path hpath
  exact shared_of_mem_choices_take hwell htarget hshared hne hpath

/-- **A mode in which all combinations are allowed finds nothing exactly if every choice fits
several elements.** -/
theorem settle_climb_none (hway : q.way ≠ [])
    (hproduct : ((q.levels mode).map List.length).prod ≤ q.settings.threshold) :
    q.document.settle (q.climb mode) = .ok none ↔
      ∀ path ∈ choices (q.levels mode), q.Shared path := by
  refine ⟨fun h => ?_, settle_climb_none_of_shared hwell htarget⟩
  have hne : q.levels mode ≠ [] := by
    rw [← List.length_pos_iff, length_levels htarget, List.length_pos_iff]
    exact hway
  have hcount : ∀ n, combinationCount ((q.levels mode).take n) ≤ q.settings.threshold := fun n =>
    Nat.le_trans (combinationCount_take_le (fun level hlevel => levels_ne_nil hlevel) n) hproduct
  exact shared_of_settle_climb_none hne hcount h

/-! ## 3. All modes -/

/-- **A search in which all combinations are allowed finds nothing exactly if every choice from the
levels of the whole way fits several elements.** -/
theorem settle_uniquePath_none_iff (hway : q.way ≠ [])
    (hproduct : ((q.levels .all).map List.length).prod ≤ q.settings.threshold) :
    q.document.settle (q.uniquePath .all) = .ok none ↔
      ∀ path ∈ choices (q.levels .all), q.Shared path := by
  rw [settle_uniquePath_none]
  constructor
  · intro h
    exact (settle_climb_none hwell htarget hway hproduct).1 (h .all)
  · intro h mode
    exact settle_climb_none_of_shared hwell htarget fun path hpath =>
      h path (q.choices_levels_subset mode hpath)

end shared

/-- A search comes to an end if whatever it may ask for fits something. -/
theorem settle_uniquePath_of_answered
    (h : ∀ mode n, (q.levels mode).take n ≠ [] → ∀ path ∈ choices ((q.levels mode).take n),
      q.Lone path ∨ q.Shared path) :
    ∃ found, q.document.settle (q.uniquePath .all) = .ok found := by
  apply settle_climbInTurn_of_answered
  intro mode _
  exact settle_climb_of_answered (h mode)

end Quest

end UniqueSelector
