import UniqueSelector.Proofs.Origins
import UniqueSelector.Proofs.PlainClimb
import UniqueSelector.Proofs.Ranked

/-!
# Breadths — the modes of the search keep parts of each other

A narrower mode begins its levels with the same candidate and keeps fewer behind it, so it has no
path of its own. As long as no search is given up for having too many combinations, the narrower
modes therefore change nothing: they find nothing whenever the widest mode finds nothing.
-/

namespace UniqueSelector

/-! ## 1. The best candidate -/

namespace Feature

/-- The features get dearer along the list, and none costs more than `bound`. -/
def RisesTo (bound : Cost) (features : List Feature) : Prop :=
  (features.Pairwise fun f g => f.cost ≤ g.cost) ∧ ∀ f ∈ features, f.cost ≤ bound

variable {b c : Cost} {features dearer : List Feature}

theorem risesTo_of_cost (h : ∀ f ∈ features, f.cost = c) : RisesTo c features := by
  refine ⟨List.pairwise_of_forall_mem_list fun f hf g hg => ?_, fun f hf => ?_⟩
  · rw [h f hf, h g hg]
    exact Cost.le_refl c
  · rw [h f hf]
    exact Cost.le_refl c

/-- Features of one cost go behind cheaper ones. -/
theorem RisesTo.append (h : RisesTo b features) (hbound : b ≤ c)
    (hdearer : ∀ f ∈ dearer, f.cost = c) :
    RisesTo c (features ++ dearer) := by
  have hcheaper : ∀ f ∈ features, f.cost ≤ c := fun f hf => Cost.le_trans (h.2 f hf) hbound
  obtain ⟨hpairwise, hle⟩ := risesTo_of_cost hdearer
  refine ⟨List.pairwise_append.2 ⟨h.1, hpairwise, fun f hf g hg => ?_⟩,
    List.forall_mem_append.2 ⟨hcheaper, hle⟩⟩
  rw [hdearer g hg]
  exact hcheaper f hf

end Feature

namespace Element

/-- Ids come first, then attributes, then classes, and last the tag. -/
theorem risesTo_admitted (e : Element) (s : Settings) :
    Feature.RisesTo Cost.forTag (e.admitted s) := by
  rw [admitted]
  refine .append (b := Cost.forClass) ?_ (by decide) fun f hf => ?_
  · refine .append (b := Cost.forAttribute) ?_ (by decide) (List.forall_mem_map.2 fun _ _ => rfl)
    refine .append (b := Cost.forId) ?_ (by decide) (List.forall_mem_map.2 fun _ _ => rfl)
    exact Feature.risesTo_of_cost (List.forall_mem_map.2 fun _ _ => rfl)
  · split at hf
    · rw [List.mem_singleton.1 hf]
      rfl
    · cases hf

/-- **The candidates of an element come by their costs.** -/
theorem pairwise_cost_candidates (e : Element) (s : Settings) :
    (e.candidates s).Pairwise fun b c => b.cost ≤ c.cost := by
  rw [candidates_eq_map, List.pairwise_map, features]
  split
  · exact List.pairwise_singleton _ _
  · exact (e.risesTo_admitted s).1

end Element

namespace Level

variable {e : Element} {index : Option Nat} {distance : Nat} {s : Settings} {best : Candidate}
  {others : Level}

theorem ofCandidates_cons (best : Candidate) (others : Level) (index : Option Nat)
    (mode : Breadth) :
    ∃ rest, ofCandidates (best :: others) index mode =
      (if mode = .one then preferCounted best index else best) :: rest := by
  cases mode with
  | all => cases index <;> exact ⟨_, rfl⟩
  | two => cases index <;> exact ⟨_, rfl⟩
  | one => exact ⟨_, rfl⟩

/-- Every mode begins with the first candidate, with its place in the narrowest one. -/
theorem build_of_candidates (h : e.candidates s = best :: others) (mode : Breadth) :
    ∃ rest, build e index mode distance s =
      { (if mode = .one then preferCounted best index else best) with level := distance } ::
        rest := by
  obtain ⟨rest, hrest⟩ := ofCandidates_cons best others index mode
  rw [build, h, hrest]
  exact ⟨_, rfl⟩

end Level

/-! ## 2. Searches of a mode -/

namespace Quest

variable {q : Quest} {p : Provider σ} {s : σ} {mode : Breadth} {n : Nat}
  {answers : String → NodeId → Answer (List NodeId)}

/-- **At each height a mode has no path that the widest mode does not have.** -/
theorem combinations_take_subset (q : Quest) (mode : Breadth) (n : Nat) :
    combinations ((q.levels mode).take n) ⊆ combinations ((q.levels .all).take n) := by
  rw [combinations_eq_choices, combinations_eq_choices]
  exact choices_subset (List.forall₂_take n (q.levels_subset mode))

/-- The modes search stacks of the same heights. -/
theorem due_iff (q : Quest) (mode mode' : Breadth) (n : Nat) : q.Due mode n ↔ q.Due mode' n := by
  rw [Due, Due, q.length_levels_eq mode mode']

/-- What decides a search is a path or a failure, and neither is nothing. -/
theorem Outcome.eq_ambiguous {stack : List Level} {result : Except Failure Finding}
    (h : q.Outcome answers stack result) (hnone : result.map Finding.path? = .ok none) :
    result = .ok .ambiguous := by
  cases h with
  | ambiguous hall => rfl
  | unique hfirst hsingle => cases hnone
  | failed hfirst hfails => cases hnone

section answers

variable
  (hanswers : ∀ selector scope state, (p.all selector scope state).1 = answers selector scope)
include hanswers

/-- A search that is not given up is ambiguous if and only if every path fits several elements. -/
theorem ambiguous_iff_several
    (hcount : combinationCount ((q.levels mode).take n) ≤ q.settings.threshold) :
    q.Ambiguous p s mode n ↔
      ∀ path ∈ combinations ((q.levels mode).take n), q.Several answers path := by
  rw [combinations_eq_choices, ← Odometer.map_select_places, List.forall_mem_map]
  exact (outcome_run_search hanswers hcount ⟨s, {}⟩).ambiguous_iff.trans
    (forall_congr' fun is => imp_congr_left Odometer.mem_places.symm)

variable (hp : p.Steady)
include hp

/-- A mode finds nothing if every path fits several elements, whether it is given up or not. -/
theorem result_climb_of_several
    (h : ∀ n, q.Due mode n → ∀ path ∈ combinations ((q.levels mode).take n),
    q.Several answers path) : (q.climb mode).result p s = .ok none := by
  rcases result_climb_cases hp q s mode with ⟨-, hnone⟩ | ⟨n, hn, hlast, hclimb⟩
  · exact hnone
  · have hcount : q.settings.threshold < combinationCount ((q.levels mode).take n) := by
      rw [← Nat.not_le]
      exact fun hcount => hlast ((ambiguous_iff_several hanswers hcount).2 (h n hn.1))
    rw [hclimb, search, if_pos hcount]
    rfl

/-- A mode in which no search is given up finds nothing only if every path fits several elements. -/
theorem several_of_result_climb
    (hcount : ∀ n, q.Reaches p s mode n →
      combinationCount ((q.levels mode).take n) ≤ q.settings.threshold)
    (h : (q.climb mode).result p s = .ok none) (n : Nat) (hn : q.Due mode n) :
    ∀ path ∈ combinations ((q.levels mode).take n), q.Several answers path := by
  rcases result_climb_cases hp q s mode with ⟨hall, -⟩ | ⟨m, hm, hlast, hclimb⟩
  · -- All searches are ambiguous, so the climb comes to each of them.
    exact (ambiguous_iff_several hanswers (hcount n ⟨hn, fun m _ hm => hall m hm⟩)).1 (hall n hn)
  · rw [h] at hclimb
    exact absurd ((outcome_run_search hanswers (hcount m hm) ⟨s, {}⟩).eq_ambiguous hclimb.symm)
      hlast

end answers

/-! ## 3. All modes -/

/-- What the narrower modes come to is asked only if the widest finds nothing. -/
theorem result_uniquePath_all (hp : p.Steady) (q : Quest) (s : σ)
    (h : (q.climb .all).result p s = .ok none → ∀ mode, (q.climb mode).result p s = .ok none) :
    (q.uniquePath .all).result p s = (q.climb .all).result p s := by
  rw [uniquePath, Breadth.andNarrower, climbInTurn_cons]
  refine Attempt.result_orElse_idle hp _ fun hall => ?_
  rw [climbInTurn_cons, climbInTurn_cons, Attempt.result_orElse_of_none hp _ (h hall .two),
    Attempt.result_orElse_of_none hp _ (h hall .one)]
  rfl

/-- **The modes keep parts of each other, and the narrower ones matter only where a search is given
up.** A level is never empty, it begins with a candidate that is no dearer than the others, and what
a narrower mode keeps is kept by the wider one. So all paths of a narrower mode are paths of the
widest one at the same height. If none of the searches that the widest mode comes to has too many
combinations, then its climb decides alone, and nothing is found if and only if at every height that
is due every path fits two elements at least; without an element on the way no height is due. -/
theorem breadths_nested (hp : p.Steady) (s : σ) (q : Quest) :
    let answers := fun selector scope => (p.all selector scope s).1
    (∀ (e : Element) (index : Option Nat) (distance : Nat) (settings : Settings),
      let level := fun mode => Level.build e index mode distance settings
      (∀ mode, level mode ≠ []) ∧
      (∃ best others, e.candidates settings = best :: others ∧
        (∀ c ∈ e.candidates settings, best.cost ≤ c.cost) ∧
        ∀ mode, ∃ rest, level mode =
          { (if mode = .one then Level.preferCounted best index else best)
            with level := distance } :: rest) ∧
      level .one ⊆ level .two ∧ level .two ⊆ level .all) ∧
    (∀ mode n, combinations ((q.levels mode).take n) ⊆ combinations ((q.levels .all).take n)) ∧
    ((∀ n, q.Reaches p s .all n →
        combinationCount ((q.levels .all).take n) ≤ q.settings.threshold) →
      (q.uniquePath .all).result p s = (q.climb .all).result p s ∧
      ((q.uniquePath .all).result p s = .ok none ↔
        ∀ n, q.Due .all n →
        ∀ path ∈ combinations ((q.levels .all).take n), q.Several answers path)) := by
  intro answers
  have hanswers : ∀ selector scope state, (p.all selector scope state).1 = answers selector scope :=
    fun selector scope state => hp.all selector scope state s
  refine ⟨fun e index distance settings => ⟨fun mode => Level.build_ne_nil mode, ?_, ?_, ?_⟩,
    q.combinations_take_subset, fun hcount => ?_⟩
  · obtain ⟨best, others, hfound⟩ := List.exists_cons_of_ne_nil (e.candidates_ne_nil settings)
    have hpairwise := e.pairwise_cost_candidates settings
    rw [hfound, List.pairwise_cons] at hpairwise
    refine ⟨best, others, hfound, ?_, Level.build_of_candidates hfound⟩
    rw [hfound, List.forall_mem_cons]
    exact ⟨Cost.le_refl best.cost, hpairwise.1⟩
  · exact (Level.build_sublist rfl).subset
  · exact (Level.build_sublist rfl).subset
  · have hsolo : (q.uniquePath .all).result p s = (q.climb .all).result p s := by
      refine result_uniquePath_all hp q s fun hall mode =>
        result_climb_of_several hanswers hp fun n hn path hpath => ?_
      exact several_of_result_climb hanswers hp hcount hall n ((q.due_iff mode .all n).1 hn) path
        (q.combinations_take_subset mode n hpath)
    refine ⟨hsolo, ?_⟩
    rw [hsolo]
    exact ⟨several_of_result_climb hanswers hp hcount, result_climb_of_several hanswers hp⟩

/-- The second of two items: no stack on the way has too many combinations, and the widest mode
finds its path. -/
theorem breadths_nested_item :
    let t := Markup.parse "<ul><li></li><li></li></ul>"
    let p := Provider.ofDocument t
    let q := aim t {} 5
    p.Steady ∧
      (∀ n, q.Reaches p () .all n →
        combinationCount ((q.levels .all).take n) ≤ q.settings.threshold) ∧
      (q.uniquePath .all).result p () = (q.climb .all).result p () ∧
      (q.uniquePath .all).result p () ≠ .ok none := by
  intro t p q
  have hp : p.Steady := Provider.steady_ofDocument t
  have hproduct : ((q.levels .all).map List.length).prod ≤ q.settings.threshold := by decide +kernel
  have hcount : ∀ n, q.Reaches p () .all n →
      combinationCount ((q.levels .all).take n) ≤ q.settings.threshold :=
    fun n _ =>
      Nat.le_trans (combinationCount_take_le (fun level hlevel => levels_ne_nil hlevel) n) hproduct
  obtain ⟨hsolo, hnone⟩ := (breadths_nested hp () q).2.2 hcount
  refine ⟨hp, hcount, hsolo, fun h => ?_⟩
  -- The item with its place is a path that fits nothing else.
  let c : Candidate := ⟨"li:nth-child(2)", Cost.forTag + Cost.forCounting, 0⟩
  have hdue : q.Due .all 1 := ⟨by decide, by decide +kernel, .inl (by decide +kernel)⟩
  have hmem : [c] ∈ combinations ((q.levels .all).take 1) := by decide +kernel
  have hone : t.queryAll (Path.render [c]) q.scope = .ok [5] := by decide +kernel
  obtain ⟨x, y, ids, hseveral⟩ := hnone.1 h 1 hdue [c] hmem
  have hids : t.queryAll (Path.render [c]) q.scope = .ok (x :: y :: ids) := hseveral
  rw [hone] at hids
  cases hids

end Quest

end UniqueSelector
