import UniqueSelector.Proofs.Budget
import UniqueSelector.Proofs.Prices

/-!
# Ranked — the order in which the combinations of a stack are tried

The odometer runs through its places in lexicographic order, and sorting by cost keeps this order
where two combinations cost the same. So the first combination that decides a search is known from
the answers alone: no place ahead of it decides anything.
-/

namespace UniqueSelector

/-! ## 1. Places -/

/-- Where elements are no dearer than each other, a sorted list keeps the order that they had. -/
theorem stable_mergeSort {le : α → α → Bool}
    (trans : ∀ a b c, le a b = true → le b c = true → le a c = true)
    (total : ∀ a b, (le a b || le b a) = true) {earlier : α → α → Prop} {l : List α}
    (h : l.Pairwise earlier) :
    (l.mergeSort le).Pairwise fun a b => le b a = true → earlier a b := by
  induction l with
  | nil => simp
  | cons a l ih =>
    rw [List.pairwise_cons] at h
    obtain ⟨before, after, hsorted, hrest, hbefore⟩ := List.mergeSort_cons trans total a l
    have hkept := ih h.2
    rw [hrest, List.pairwise_append] at hkept
    obtain ⟨hkept, hkept', hcross⟩ := hkept
    rw [hsorted, List.pairwise_append, List.pairwise_cons]
    refine ⟨hkept, ⟨fun b hb _ => ?_, hkept'⟩, fun b hb c hc => ?_⟩
    · -- What comes behind the first element came behind it before.
      have hmem : b ∈ l.mergeSort le := hrest ▸ List.mem_append_right before hb
      exact h.1 b (List.mem_mergeSort.1 hmem)
    · rcases List.mem_cons.1 hc with rfl | hc
      · intro hle
        have hnot := hbefore b hb
        rw [hle] at hnot
        cases hnot
      · exact hcross b hb c hc

namespace Odometer

/-- All places of the odometer. -/
def places : List Level → List (List Nat)
  | [] => [[]]
  | level :: stack => (List.range level.length).flatMap fun i => (places stack).map (i :: ·)

variable {stack : List Level} {is js : List Nat}

theorem mem_places : is ∈ places stack ↔ Valid stack is := by
  induction stack generalizing is with
  | nil => rw [places, List.mem_singleton, Valid, List.forall₂_nil_left_iff]
  | cons level stack ih =>
    rw [places, List.mem_flatMap, Valid, List.forall₂_cons_left_iff]
    constructor
    · rintro ⟨i, hi, his⟩
      obtain ⟨rest, hrest, rfl⟩ := List.mem_map.1 his
      exact ⟨i, rest, List.mem_range.1 hi, ih.1 hrest, rfl⟩
    · rintro ⟨i, rest, hi, hrest, rfl⟩
      exact ⟨i, List.mem_range.2 hi, List.mem_map.2 ⟨rest, ih.2 hrest, rfl⟩⟩

theorem pairwise_places (stack : List Level) : (places stack).Pairwise (· < ·) := by
  induction stack with
  | nil => exact List.pairwise_singleton _ _
  | cons level stack ih =>
    rw [places, List.pairwise_flatMap]
    -- Within one index of the first level the rest decides, between two of them the indices do.
    constructor
    · intro i _
      rw [List.pairwise_map]
      exact ih.imp fun h => List.cons_lt_cons_iff.2 (.inr ⟨rfl, h⟩)
    · refine List.pairwise_lt_range.imp ?_
      intro i j hij is his js hjs
      obtain ⟨is, -, rfl⟩ := List.mem_map.1 his
      obtain ⟨js, -, rfl⟩ := List.mem_map.1 hjs
      exact List.cons_lt_cons_iff.2 (.inl hij)

theorem map_select_places (stack : List Level) :
    (places stack).map (select stack) = choices stack := by
  induction stack with
  | nil => rfl
  | cons level stack ih =>
    have hindices : List.range level.length = level.zipIdx.map Prod.snd := by
      rw [List.zipIdx_map_snd, List.range_eq_range']
    have hcandidates : choices (level :: stack) =
        level.zipIdx.flatMap fun entry => (choices stack).map (entry.1 :: ·) := by
      rw [← List.flatMap_map Prod.fst fun c => (choices stack).map (c :: ·), List.zipIdx_map_fst,
        choices]
    rw [places, hindices, List.flatMap_map, List.map_flatMap, hcandidates]
    apply List.flatMap_congr
    rintro ⟨c, i⟩ hentry
    rw [← ih, List.map_map, List.map_map]
    apply List.map_congr_left
    intro is _
    have hc : level[i]? = some c := List.mem_zipIdx_iff_getElem?.1 hentry
    simp [select, hc]

/-! ## 2. Ranks -/

/-- The combination at the first place is cheaper, or it costs the same and its place
comes first. -/
def Ahead (stack : List Level) (is js : List Nat) : Prop :=
  let cost := (select stack is).cost
  let cost' := (select stack js).cost
  (cost ≤ cost' ∧ cost ≠ cost') ∨ (cost = cost' ∧ is < js)

theorem not_ahead_self (is : List Nat) : ¬Ahead stack is is := by
  rintro (⟨-, hne⟩ | ⟨-, hlt⟩)
  · exact hne rfl
  · exact List.lt_irrefl is hlt

theorem Ahead.asymm (h : Ahead stack is js) : ¬Ahead stack js is := by
  rintro (⟨hle, hne⟩ | ⟨heq, hlt⟩)
  · rcases h with ⟨hle', hne'⟩ | ⟨heq', -⟩
    · exact hne (Cost.le_antisymm hle hle')
    · exact hne heq'.symm
  · rcases h with ⟨-, hne'⟩ | ⟨-, hlt'⟩
    · exact hne' heq.symm
    · exact List.lt_irrefl is (List.lt_trans hlt' hlt)

theorem ahead_total (hne : is ≠ js) : Ahead stack is js ∨ Ahead stack js is := by
  by_cases hcost : (select stack is).cost = (select stack js).cost
  · rcases lt_or_gt_of_ne hne with hlt | hgt
    · exact .inl (.inr ⟨hcost, hlt⟩)
    · exact .inr (.inr ⟨hcost.symm, hgt⟩)
  · rcases Cost.le_total (select stack is).cost (select stack js).cost with hle | hle
    · exact .inl (.inl ⟨hle, hcost⟩)
    · exact .inr (.inl ⟨hle, Ne.symm hcost⟩)

/-- The places in the order in which their combinations are tried. -/
def ranked (stack : List Level) : List (List Nat) :=
  (places stack).mergeSort fun is js => (select stack is).cost ≤ (select stack js).cost

theorem mem_ranked : is ∈ ranked stack ↔ Valid stack is := by
  rw [ranked, List.mem_mergeSort, mem_places]

theorem map_select_ranked (stack : List Level) :
    (ranked stack).map (select stack) = Path.sortByCost (combinations stack) := by
  rw [combinations_eq_choices, ← map_select_places, Path.sortByCost, ranked]
  exact List.map_mergeSort fun _ _ _ _ => rfl

/-- **The combinations are tried by cost, and those of one cost in lexicographic order.** -/
theorem pairwise_ranked (stack : List Level) : (ranked stack).Pairwise (Ahead stack) := by
  have htrans := Cost.decide_le_trans fun is => (select stack is).cost
  have htotal := Cost.decide_le_total fun is => (select stack is).cost
  -- Sorted by cost, and where two cost the same in the order of their places.
  refine ((List.pairwise_mergeSort htrans htotal _).and
    (stable_mergeSort htrans htotal (pairwise_places stack))).imp ?_
  rintro is js ⟨hle, hlt⟩
  have hle := of_decide_eq_true hle
  by_cases hcost : (select stack is).cost = (select stack js).cost
  · exact .inr ⟨hcost, hlt (decide_eq_true (hcost ▸ Cost.le_refl _))⟩
  · exact .inl ⟨hle, hcost⟩

end Odometer

/-! ## 3. Exact totals -/

namespace Cost

theorem ofEighths_of_lt {n : Int} (h : n.natAbs < 2 ^ precision) :
    ofEighths n = .finite (n < 0) n.natAbs := by
  rw [ofEighths, nearest_of_lt h]
  exact if_pos (Nat.lt_of_lt_of_le h precision_le_limit)

theorem rank_ofEighths {n : Int} (h : n.natAbs < 2 ^ precision) :
    (ofEighths n).rank = (0, if n < 0 then n - 1 else n) := by
  rw [ofEighths_of_lt h]
  by_cases hn : n < 0
  · rw [decide_eq_true hn, rank, if_pos hn]
    congr 1
    omega
  · rw [decide_eq_false hn, rank, if_neg hn]
    congr 1
    omega

theorem ofEighths_le_ofEighths {m n : Int} (hm : m.natAbs < 2 ^ precision)
    (hn : n.natAbs < 2 ^ precision) :
    ofEighths m ≤ ofEighths n ↔ m ≤ n := by
  rw [le_iff, rank_ofEighths hm, rank_ofEighths hn]
  dsimp only
  split <;> split <;> omega

theorem ofEighths_inj {m n : Int} (hm : m.natAbs < 2 ^ precision) (hn : n.natAbs < 2 ^ precision)
    (h : ofEighths m = ofEighths n) : m = n := by
  have hrank : (ofEighths m).rank.2 = (ofEighths n).rank.2 := congrArg (fun cost => (rank cost).2) h
  rw [rank_ofEighths hm, rank_ofEighths hn] at hrank
  dsimp only at hrank
  split at hrank <;> split at hrank <;> omega

theorem signed_natAbs (n : Int) : signed (n < 0) n.natAbs = n := by
  unfold signed
  split
  · next h =>
    have hn := of_decide_eq_true h
    omega
  · next h =>
    have hn := of_decide_eq_false (Bool.eq_false_iff.2 h)
    omega

/-- A small number of eighths is added exactly, and zero has no sign unless both are
negative zeros. -/
theorem finite_add_ofEighths {negative : Bool} {k : Nat} {n : Int} (hn : n.natAbs < 2 ^ precision)
    (hsign : negative = true → n < 0 → signed negative k + n ≠ 0) :
    Cost.finite negative k + ofEighths n = ofEighths (signed negative k + n) := by
  rw [ofEighths_of_lt hn]
  show (if signed negative k + signed (n < 0) n.natAbs = 0 then Cost.finite (negative && n < 0) 0
    else ofEighths (signed negative k + signed (n < 0) n.natAbs)) = _
  rw [signed_natAbs]
  split
  · next hzero =>
    have hpositive : (negative && decide (n < 0)) = false := by
      rw [Bool.and_eq_false_imp]
      exact fun hnegative => decide_eq_false fun hlt => hsign hnegative hlt hzero
    have hsmall : (0 : Int).natAbs < 2 ^ precision := Nat.two_pow_pos precision
    rw [hzero, hpositive, ofEighths_of_lt hsmall]
    rfl
  · rfl

/-- **Small totals are exact.** -/
theorem foldl_ofEighths (costs : List Int) {total : Int}
    (h : total.natAbs + (costs.map Int.natAbs).sum < 2 ^ precision) :
    (costs.map ofEighths).foldl (· + ·) (ofEighths total) = ofEighths (total + costs.sum) := by
  induction costs generalizing total with
  | nil => simp
  | cons n costs ih =>
    rw [List.map_cons, List.sum_cons] at h
    have hadd : ofEighths total + ofEighths n = ofEighths (total + n) := by
      have hsum : Cost.finite (total < 0) total.natAbs + ofEighths n =
          ofEighths (signed (total < 0) total.natAbs + n) :=
        finite_add_ofEighths (by omega) fun htotal hn => by
          have := of_decide_eq_true htotal
          rw [signed_natAbs]
          omega
      rwa [signed_natAbs, ← ofEighths_of_lt (by omega)] at hsum
    rw [List.map_cons, List.foldl_cons, hadd, ih (by omega), List.sum_cons, Int.add_assoc]

theorem sum_ofEighths {costs : List Int} (hne : costs ≠ [])
    (h : (costs.map Int.natAbs).sum < 2 ^ precision) :
    sum (costs.map ofEighths) = ofEighths costs.sum := by
  cases costs with
  | nil => exact absurd rfl hne
  | cons n costs =>
    rw [List.map_cons, List.sum_cons] at h
    -- The sum starts from negative zero, which changes nothing.
    have hstart : Cost.finite true 0 + ofEighths n = ofEighths n := by
      have hsum : Cost.finite true 0 + ofEighths n = ofEighths (signed true 0 + n) :=
        finite_add_ofEighths (by omega) fun _ hn => by
          show -0 + n ≠ 0
          omega
      rwa [show signed true 0 = 0 from rfl, Int.zero_add] at hsum
    rw [sum, List.map_cons, List.foldl_cons, hstart, foldl_ofEighths costs h, List.sum_cons]

end Cost

namespace Odometer

variable {stack : List Level} {is js : List Nat}

/-- What the combination costs, if each candidate costs so many eighths. -/
def total (eighths : Candidate → Int) (stack : List Level) (is : List Nat) : Int :=
  ((select stack is).map eighths).sum

theorem natAbs_sum_le (costs : List Int) : costs.sum.natAbs ≤ (costs.map Int.natAbs).sum := by
  induction costs with
  | nil => exact Nat.le_refl 0
  | cons n costs ih =>
    rw [List.sum_cons, List.map_cons, List.sum_cons]
    omega

section exact

variable {eighths : Candidate → Int}
  (hcosts : ∀ level ∈ stack, ∀ c ∈ level, c.cost = .ofEighths (eighths c))
  (hsmall : ∀ is, Valid stack is →
    ((select stack is).map fun c => (eighths c).natAbs).sum < 2 ^ Cost.precision)
include hcosts hsmall

theorem cost_select (hne : stack ≠ []) (his : Valid stack is) :
    (select stack is).cost = .ofEighths (total eighths stack is) := by
  have hselect := his.select
  have hcost : ∀ c ∈ select stack is, c.cost = .ofEighths (eighths c) := by
    intro c hc
    obtain ⟨hlength, hmem⟩ := List.forall₂_iff_get.1 hselect
    obtain ⟨⟨l, hl⟩, rfl⟩ := List.get_of_mem hc
    exact hcosts _ (List.get_mem _ ⟨l, Nat.lt_of_lt_of_eq hl hlength⟩) _ (hmem l hl _)
  have hnonempty : (select stack is).map eighths ≠ [] := by
    intro hnil
    have hlength := hselect.length_eq
    rw [List.map_eq_nil_iff.1 hnil] at hlength
    exact hne (List.length_eq_zero_iff.1 hlength.symm)
  have hmap : (select stack is).map Candidate.cost =
      ((select stack is).map eighths).map Cost.ofEighths := by
    rw [List.map_map]
    exact List.map_congr_left fun c hc => by rw [hcost c hc, Function.comp_apply]
  have hsum : (((select stack is).map eighths).map Int.natAbs).sum < 2 ^ Cost.precision := by
    rw [List.map_map]
    exact hsmall is his
  rw [Path.cost, hmap, Cost.sum_ofEighths hnonempty hsum, total]

/-- **Small costs are compared by their exact totals.** -/
theorem ahead_iff_total (his : Valid stack is) (hjs : Valid stack js) :
    Ahead stack is js ↔ total eighths stack is < total eighths stack js ∨
      (total eighths stack is = total eighths stack js ∧ is < js) := by
  by_cases hne : stack = []
  · subst hne
    cases his
    cases hjs
    rw [Ahead]
    simp
  · have hbound : ∀ is, Valid stack is → (total eighths stack is).natAbs < 2 ^ Cost.precision := by
      intro is his
      refine Nat.lt_of_le_of_lt (natAbs_sum_le _) ?_
      rw [List.map_map]
      exact hsmall is his
    have hle := Cost.ofEighths_le_ofEighths (hbound is his) (hbound js hjs)
    have heq : Cost.ofEighths (total eighths stack is) = .ofEighths (total eighths stack js) ↔
        total eighths stack is = total eighths stack js :=
      ⟨Cost.ofEighths_inj (hbound is his) (hbound js hjs), fun h => by rw [h]⟩
    rw [Ahead, cost_select hcosts hsmall hne his, cost_select hcosts hsmall hne hjs, hle, ne_eq,
      heq]
    have hlt : total eighths stack is ≤ total eighths stack js ∧
        ¬total eighths stack is = total eighths stack js ↔
        total eighths stack is < total eighths stack js := by omega
    rw [hlt]

end exact

end Odometer

/-! ## 4. One answer after another -/

namespace Quest

open Odometer

variable {q : Quest} {p : Provider σ} {answers : String → NodeId → Answer (List NodeId)}
  {path : Path} {f f' : Failure}

/-- One element fits. -/
def Single (q : Quest) (answers : String → NodeId → Answer (List NodeId)) (path : Path) : Prop :=
  ∃ x, answers path.render q.scope = .ok [x]

/-- Two elements at least fit. -/
def Several (q : Quest) (answers : String → NodeId → Answer (List NodeId)) (path : Path) : Prop :=
  ∃ x y ids, answers path.render q.scope = .ok (x :: y :: ids)

/-- The query is refused or nothing fits, which is the failure `f`. -/
def Fails (q : Quest) (answers : String → NodeId → Answer (List NodeId)) (path : Path)
    (f : Failure) : Prop :=
  (∃ e, answers path.render q.scope = .error e ∧ f = .query e) ∨
    (answers path.render q.scope = .ok [] ∧ f = .noMatch path.render)

/-- Whatever is ahead of the place fits several elements. -/
structure First (q : Quest) (answers : String → NodeId → Answer (List NodeId)) (stack : List Level)
    (is : List Nat) :
    Prop where
  valid : Valid stack is
  several : ∀ js, Valid stack js → Ahead stack js is → q.Several answers (select stack js)

/-- What a search may come to. -/
inductive Outcome (q : Quest) (answers : String → NodeId → Answer (List NodeId))
    (stack : List Level) :
    Except Failure Finding → Prop where
  | ambiguous (hall : ∀ is, Valid stack is → q.Several answers (select stack is)) :
    Outcome q answers stack (.ok .ambiguous)
  | unique {is : List Nat} (hfirst : q.First answers stack is)
    (hsingle : q.Single answers (select stack is)) :
    Outcome q answers stack (.ok (.unique (select stack is)))
  | failed {is : List Nat} {f : Failure} (hfirst : q.First answers stack is)
    (hfails : q.Fails answers (select stack is) f) : Outcome q answers stack (.error f)

/-- There is one place at most where a search is decided. -/
theorem First.eq {stack : List Level} {is js : List Nat} (h : q.First answers stack is)
    (h' : q.First answers stack js) (hdecides : ¬q.Several answers (select stack is))
    (hdecides' : ¬q.Several answers (select stack js)) : is = js := by
  by_contra hne
  rcases ahead_total hne with hahead | hahead
  · exact hdecides (h'.several is h.valid hahead)
  · exact hdecides' (h.several js h'.valid hahead)

theorem Several.not_single (h : q.Several answers path) : ¬q.Single answers path := by
  rintro ⟨z, hz⟩
  obtain ⟨x, y, ids, hids⟩ := h
  rw [hz] at hids
  cases hids

theorem Several.not_fails (h : q.Several answers path) : ¬q.Fails answers path f := by
  obtain ⟨x, y, ids, hids⟩ := h
  rintro (⟨e, he, -⟩ | ⟨hnil, -⟩)
  · rw [he] at hids
    cases hids
  · rw [hnil] at hids
    cases hids

theorem Single.not_fails (h : q.Single answers path) : ¬q.Fails answers path f := by
  obtain ⟨x, hx⟩ := h
  rintro (⟨e, he, -⟩ | ⟨hnil, -⟩)
  · rw [he] at hx
    cases hx
  · rw [hnil] at hx
    cases hx

theorem Fails.eq (h : q.Fails answers path f) (h' : q.Fails answers path f') : f = f' := by
  rcases h with ⟨e, he, rfl⟩ | ⟨hnil, rfl⟩
  · rcases h' with ⟨e', he', rfl⟩ | ⟨hnil', -⟩
    · rw [he] at he'
      cases he'
      rfl
    · rw [he] at hnil'
      cases hnil'
  · rcases h' with ⟨e', he', -⟩ | ⟨-, rfl⟩
    · rw [hnil] at he'
      cases he'
    · rfl

section answers

variable (hp : ∀ selector scope state, (p.all selector scope state).1 = answers selector scope)
include hp

theorem run_isUnique (q : Quest) (path : Path) (r : Progress σ) :
    (Inquiry.run p (q.isUnique path).run r).1 = (answers path.render q.scope).mapError .query >>=
      judge path := by
  have hall : (Inquiry.run p (Attempt.all path.render q.scope).run r).1 =
      (answers path.render q.scope).mapError .query := by
    rw [← hp path.render q.scope r.state]
    rfl
  rw [isUnique, Attempt.run_bind]
  revert hall
  generalize Inquiry.run p (Attempt.all path.render q.scope).run r = asked
  obtain ⟨result, r'⟩ := asked
  rintro rfl
  cases answers path.render q.scope with
  | error e => rfl
  | ok ids =>
    cases ids with
    | nil => rfl
    | cons x ids => cases ids <;> rfl

/-- How a path is judged. -/
theorem verdict (q : Quest) (path : Path) (r : Progress σ) :
    (q.Several answers path ∧ (Inquiry.run p (q.isUnique path).run r).1 = .ok false) ∨
    (q.Single answers path ∧ (Inquiry.run p (q.isUnique path).run r).1 = .ok true) ∨
    ∃ f, q.Fails answers path f ∧ (Inquiry.run p (q.isUnique path).run r).1 = .error f := by
  rw [run_isUnique hp, Several, Single]
  cases hanswer : answers path.render q.scope with
  | error e => exact .inr (.inr ⟨.query e, .inl ⟨e, hanswer, rfl⟩, rfl⟩)
  | ok ids =>
    cases ids with
    | nil => exact .inr (.inr ⟨.noMatch path.render, .inr ⟨hanswer, rfl⟩, rfl⟩)
    | cons x ids =>
      cases ids with
      | nil => exact .inr (.inl ⟨⟨x, rfl⟩, rfl⟩)
      | cons y ids => exact .inl ⟨⟨x, y, ids, rfl⟩, rfl⟩

/-- A row of paths is decided by the first that does not fit several elements. -/
theorem run_firstUnique (q : Quest) (paths : List Path) (r : Progress σ) :
    ((∀ path ∈ paths, q.Several answers path) ∧
        (Inquiry.run p (q.firstUnique paths).run r).1 = .ok none) ∨
    ∃ before path after, paths = before ++ path :: after ∧
      (∀ path ∈ before, q.Several answers path) ∧
      (q.Single answers path ∧ (Inquiry.run p (q.firstUnique paths).run r).1 = .ok (some path) ∨
        ∃ f, q.Fails answers path f ∧
        (Inquiry.run p (q.firstUnique paths).run r).1 = .error f) := by
  induction paths generalizing r with
  | nil => exact .inl ⟨List.forall_mem_nil _, rfl⟩
  | cons path paths ih =>
    have hverdict := verdict hp q path r
    rw [firstUnique, Attempt.run_bind]
    revert hverdict
    generalize Inquiry.run p (q.isUnique path).run r = asked
    obtain ⟨result, r'⟩ := asked
    rintro (⟨hseveral, rfl⟩ | ⟨hsingle, rfl⟩ | ⟨f, hfails, rfl⟩)
    · -- The rest of the row decides.
      rcases ih r' with ⟨hall, hnone⟩ | ⟨before, path', after, rfl, hbefore, hdecides⟩
      · exact .inl ⟨List.forall_mem_cons.2 ⟨hseveral, hall⟩, hnone⟩
      · exact .inr ⟨path :: before, path', after, rfl, List.forall_mem_cons.2 ⟨hseveral, hbefore⟩,
          hdecides⟩
    · exact .inr ⟨[], path, paths, rfl, List.forall_mem_nil _, .inl ⟨hsingle, rfl⟩⟩
    · exact .inr ⟨[], path, paths, rfl, List.forall_mem_nil _, .inr ⟨f, hfails, rfl⟩⟩

/-- The first rank that is not of several elements decides a row of ranks. -/
theorem run_firstUnique_ranked (q : Quest) (stack : List Level) (r : Progress σ) :
    let result := (Inquiry.run p (q.firstUnique (Path.sortByCost (combinations stack))).run r).1
    ((∀ is, Valid stack is → q.Several answers (select stack is)) ∧ result = .ok none) ∨
    ∃ is, q.First answers stack is ∧
      (q.Single answers (select stack is) ∧ result = .ok (some (select stack is)) ∨
      ∃ f, q.Fails answers (select stack is) f ∧ result = .error f) := by
  intro result
  have hrun := run_firstUnique hp q (Path.sortByCost (combinations stack)) r
  rw [show (Inquiry.run p (q.firstUnique (Path.sortByCost (combinations stack))).run r).1 =
    result from rfl, ← map_select_ranked] at hrun
  rcases hrun with ⟨hall, hnone⟩ | ⟨before, path, after, hsplit, hbefore, hdecides⟩
  · exact .inl ⟨fun is his => hall _ (List.mem_map_of_mem (mem_ranked.2 his)), hnone⟩
  · right
    obtain ⟨places, rest, hranked, rfl, hrest⟩ := List.map_eq_append_iff.1 hsplit
    obtain ⟨is, places', rfl, rfl, -⟩ := List.map_eq_cons_iff.1 hrest
    refine ⟨is,
      ⟨mem_ranked.1 (hranked ▸ List.mem_append_right _ (.head _)), fun js hjs hahead => ?_⟩,
      hdecides⟩
    -- What is ahead of a rank comes before it in the row.
    have hpairwise := pairwise_ranked stack
    rw [hranked, List.pairwise_append, List.pairwise_cons] at hpairwise
    have hmem := mem_ranked.2 hjs
    rw [hranked, List.mem_append, List.mem_cons] at hmem
    rcases hmem with hjs | rfl | hjs
    · exact hbefore _ (List.mem_map_of_mem hjs)
    · exact absurd hahead (not_ahead_self js)
    · exact absurd hahead (hpairwise.2.1.1 js hjs).asymm

theorem outcome_run_search {stack : List Level}
    (hcount : combinationCount stack ≤ q.settings.threshold) (r : Progress σ) :
    q.Outcome answers stack (Inquiry.run p (q.search stack).run r).1 := by
  have hrow := run_firstUnique_ranked hp q stack r
  rw [search, if_neg (Nat.not_lt.2 hcount), Attempt.run_bind]
  revert hrow
  dsimp only
  generalize Inquiry.run p (q.firstUnique (Path.sortByCost (combinations stack))).run r = tried
  obtain ⟨result, r'⟩ := tried
  rintro (⟨hall, rfl⟩ | ⟨is, hfirst, ⟨hsingle, rfl⟩ | ⟨f, hfails, rfl⟩⟩)
  · exact .ambiguous hall
  · exact .unique hfirst hsingle
  · exact .failed hfirst hfails

end answers

/-! ## 5. The search -/

namespace Outcome

variable {stack : List Level} {result : Except Failure Finding} (h : q.Outcome answers stack result)
include h

theorem unique_iff : result = .ok (.unique path) ↔
    ∃ is, q.First answers stack is ∧ select stack is = path ∧ q.Single answers path := by
  cases h with
  | ambiguous hall =>
    refine iff_of_false (fun h => by cases h) ?_
    rintro ⟨is, hfirst, rfl, hsingle⟩
    exact (hall is hfirst.valid).not_single hsingle
  | @unique is hfirst hsingle =>
    constructor
    · intro h
      cases h
      exact ⟨is, hfirst, rfl, hsingle⟩
    · rintro ⟨js, hjs, rfl, hsingle'⟩
      rw [hfirst.eq hjs (fun h => h.not_single hsingle) fun h => h.not_single hsingle']
  | failed hfirst hfails =>
    refine iff_of_false (fun h => by cases h) ?_
    rintro ⟨js, hjs, rfl, hsingle⟩
    cases hfirst.eq hjs (fun h => h.not_fails hfails) fun h => h.not_single hsingle
    exact hsingle.not_fails hfails

theorem error_iff :
    result = .error f ↔ ∃ is, q.First answers stack is ∧ q.Fails answers (select stack is) f := by
  cases h with
  | ambiguous hall =>
    refine iff_of_false (fun h => by cases h) ?_
    rintro ⟨is, hfirst, hfails⟩
    exact (hall is hfirst.valid).not_fails hfails
  | unique hfirst hsingle =>
    refine iff_of_false (fun h => by cases h) ?_
    rintro ⟨js, hjs, hfails⟩
    cases hfirst.eq hjs (fun h => h.not_single hsingle) fun h => h.not_fails hfails
    exact hsingle.not_fails hfails
  | @failed is f' hfirst hfails =>
    constructor
    · intro h
      cases h
      exact ⟨is, hfirst, hfails⟩
    · rintro ⟨js, hjs, hfails'⟩
      cases hfirst.eq hjs (fun h => h.not_fails hfails) fun h => h.not_fails hfails'
      rw [hfails.eq hfails']

/-- The search fails if and only if some path that fails is ahead of all that fit one element. -/
theorem exists_error_iff :
    (∃ f, result = .error f) ↔ ∃ is f, Valid stack is ∧ q.Fails answers (select stack is) f ∧
      ∀ js, Valid stack js → q.Single answers (select stack js) → Ahead stack is js := by
  cases h with
  | ambiguous hall =>
    refine iff_of_false (fun ⟨f, h⟩ => by cases h) ?_
    rintro ⟨is, f, his, hfails, -⟩
    exact (hall is his).not_fails hfails
  | @unique is hfirst hsingle =>
    refine iff_of_false (fun ⟨f, h⟩ => by cases h) ?_
    rintro ⟨js, f, hjs, hfails, hahead⟩
    exact (hfirst.several js hjs (hahead is hfirst.valid hsingle)).not_fails hfails
  | @failed is f hfirst hfails =>
    refine iff_of_true ⟨f, rfl⟩ ⟨is, f, hfirst.valid, hfails, fun js hjs hsingle => ?_⟩
    have hne : is ≠ js := by
      rintro rfl
      exact hsingle.not_fails hfails
    rcases ahead_total hne with hahead | hahead
    · exact hahead
    · exact absurd hsingle (hfirst.several js hjs hahead).not_single

theorem ambiguous_iff :
    result = .ok .ambiguous ↔ ∀ is, Valid stack is → q.Several answers (select stack is) := by
  cases h with
  | ambiguous hall => exact iff_of_true rfl hall
  | @unique is hfirst hsingle =>
    exact iff_of_false (fun h => by cases h) fun hall => (hall is hfirst.valid).not_single hsingle
  | @failed is f hfirst hfails =>
    exact iff_of_false (fun h => by cases h) fun hall => (hall is hfirst.valid).not_fails hfails

end Outcome

/-- **The search of a stack finds the cheapest combination that fits one element**, and among those
of one cost the first in lexicographic order, if the answers depend on the queries alone. A stack
with too many combinations is not asked about at all. Otherwise the first place decides that does
not fit several elements; a query that is refused or fits nothing ends the search if it is ahead of
all that fit one. The levels of elements are never empty, and small costs are compared by their
exact totals. -/
theorem run_search
    (hp : ∀ selector scope state, (p.all selector scope state).1 = answers selector scope)
    (hthreshold : q.settings.threshold < maxCount) {stack : List Level}
    (hlevels : ∀ level ∈ stack, level ≠ []) (r : Progress σ) :
    let count := (stack.map List.length).prod
    let run := Inquiry.run p (q.search stack).run r
    (q.settings.threshold < count → run = (.ok .tooMany, r)) ∧
    (count ≤ q.settings.threshold →
      (∀ path, run.1 = .ok (.unique path) ↔
        ∃ is, q.First answers stack is ∧ select stack is = path ∧ q.Single answers path) ∧
      (∀ f, run.1 = .error f ↔ ∃ is, q.First answers stack is ∧
        q.Fails answers (select stack is) f) ∧
      ((∃ f, run.1 = .error f) ↔ ∃ is f, Valid stack is ∧ q.Fails answers (select stack is) f ∧
        ∀ js, Valid stack js → q.Single answers (select stack js) → Ahead stack is js) ∧
      (run.1 = .ok .ambiguous ↔ ∀ is, Valid stack is → q.Several answers (select stack is))) ∧
    (∀ eighths : Candidate → Int, (∀ level ∈ stack, ∀ c ∈ level, c.cost = .ofEighths (eighths c)) →
      (∀ is, Valid stack is →
        ((select stack is).map fun c => (eighths c).natAbs).sum < 2 ^ Cost.precision) →
      ∀ is js, Valid stack is → Valid stack js →
        (Ahead stack is js ↔ total eighths stack is < total eighths stack js ∨
          (total eighths stack is = total eighths stack js ∧ is < js))) ∧
    (∀ e index mode distance s, Level.build e index mode distance s ≠ []) := by
  intro count run
  refine ⟨fun hcount => ?_, fun hcount => ?_, fun eighths hcosts hsmall is js his hjs => ?_,
    fun e index mode distance s => Level.build_ne_nil mode⟩
  · rw [show run = Inquiry.run p (q.search stack).run r from rfl, search_of_prod hthreshold hcount]
    rfl
  · have hcount : combinationCount stack ≤ q.settings.threshold := by
      rw [combinationCount_eq hlevels]
      exact Nat.le_trans (Nat.min_le_left _ _) hcount
    have houtcome := outcome_run_search hp hcount r
    exact ⟨fun path => houtcome.unique_iff, fun f => houtcome.error_iff, houtcome.exists_error_iff,
      houtcome.ambiguous_iff⟩
  · exact ahead_iff_total hcosts hsmall his hjs

/-- Two classes that cost the same: the first fits both paragraphs, the second only one, and the tag
is dearer. -/
theorem run_search_paragraphs :
    let t := Markup.parse "<p class=\"b a\"></p><p class=b></p>"
    let q := aim t {} 3
    let stack : List Level :=
      [[⟨".b", Cost.forClass, 0⟩, ⟨".a", Cost.forClass, 0⟩, ⟨"p", Cost.forTag, 0⟩]]
    let path : Path := [⟨".a", Cost.forClass, 0⟩]
    q.settings.threshold < maxCount ∧ (∀ level ∈ stack, level ≠ []) ∧ q.First t.queryAll stack [1] ∧
      (Inquiry.run (Provider.ofDocument t) (q.search stack).run ⟨(), {}⟩).1 =
        .ok (.unique path) := by
  intro t q stack path
  have hthreshold : q.settings.threshold < maxCount := by decide
  have hlevels : ∀ level ∈ stack, level ≠ [] := by decide
  have hcount : (stack.map List.length).prod ≤ q.settings.threshold := by decide
  have hboth : t.queryAll ".b" Document.root = .ok [3, 4] := by decide +kernel
  have hone : t.queryAll ".a" Document.root = .ok [3] := by decide +kernel
  have hfirst : q.First t.queryAll stack [1] := by
    refine ⟨.cons (by decide) .nil, fun js hjs hahead => ?_⟩
    have hmem : js ∈ [[0], [1], [2]] := mem_places.2 hjs
    simp only [List.mem_cons, List.not_mem_nil, or_false] at hmem
    rcases hmem with rfl | rfl | rfl
    · exact ⟨3, 4, [], hboth⟩
    · exact absurd hahead (not_ahead_self [1])
    · have hdearer : ¬(select stack [2]).cost ≤ (select stack [1]).cost := by decide +kernel
      rcases hahead with ⟨hle, -⟩ | ⟨heq, -⟩
      · exact absurd hle hdearer
      · rw [heq] at hdearer
        exact absurd (Cost.le_refl (select stack [1]).cost) hdearer
  have hp : ∀ selector scope state, ((Provider.ofDocument t).all selector scope state).1 =
      t.queryAll selector scope :=
    fun _ _ _ => rfl
  have hsearch := run_search (q := q) hp hthreshold hlevels ⟨(), {}⟩
  exact ⟨hthreshold, hlevels, hfirst, ((hsearch.2.1 hcount).1 path).2 ⟨[1], hfirst, rfl, 3, hone⟩⟩

end Quest

end UniqueSelector
