import UniqueSelector.Proofs.Prices
import UniqueSelector.Proofs.Widening

/-!
# Variants — what may be left of a path

Candidates between the target and the outermost one may be left out. As long as no joint is lost,
the fewer of them stay, the more elements fit; so whatever lies between a path that fits one
element and a variant of it is a variant itself, and a variant is reached by leaving out one
candidate after another.
-/

namespace UniqueSelector

open Selector

namespace Path

/-! ## 1. Leaving out -/

/-- Candidates of the path are left out, but neither the first nor the last. -/
structure Pared (path shorter : Path) : Prop where
  sublist : shorter.Sublist path
  head : shorter.head? = path.head?
  last : shorter.getLast? = path.getLast?

variable {path shorter shortest : Path}

theorem Pared.refl (path : Path) : Pared path path := ⟨List.Sublist.refl path, rfl, rfl⟩

theorem Pared.trans (h : Pared path shorter) (h' : Pared shorter shortest) : Pared path shortest :=
  ⟨h'.sublist.trans h.sublist, h'.head.trans h.head, h'.last.trans h.last⟩

theorem pared_eraseIdx {i : Nat} (hfirst : 1 ≤ i) (hlast : i + 1 < path.length) :
    Pared path (path.eraseIdx i) where
  sublist := List.eraseIdx_sublist path i
  head := by
    rw [List.head?_eq_getElem?, List.head?_eq_getElem?, List.getElem?_eraseIdx_of_lt hfirst]
  last := by
    rw [List.getLast?_eq_getElem?, List.getLast?_eq_getElem?, List.length_eraseIdx_of_lt (by omega),
      List.getElem?_eraseIdx_of_ge (by omega)]
    congr 1
    omega

theorem length_lt_of_sublist (hsub : shorter.Sublist path) (hne : shorter ≠ path) :
    shorter.length < path.length :=
  Nat.lt_of_le_of_ne hsub.length_le fun hlength => hne (hsub.eq_of_length hlength)

theorem exists_sublist_eraseIdx (hsub : shorter.Sublist path) (hne : shorter ≠ path) :
    ∃ i, i < path.length ∧ shorter.Sublist (path.eraseIdx i) := by
  induction hsub with
  | slnil => exact absurd rfl hne
  | cons c hsub => exact ⟨0, Nat.succ_pos _, hsub⟩
  | cons_cons c hsub ih =>
    obtain ⟨i, hi, hrest⟩ := ih fun heq => hne (by rw [heq])
    exact ⟨i + 1, Nat.succ_lt_succ hi, hrest.cons_cons c⟩

/-- What is left over can be reached by leaving out one candidate first. -/
theorem Pared.exists_eraseIdx
    (hclimbs : path.Pairwise fun nearer farther => nearer.level < farther.level)
    (h : Pared path shorter) (hne : shorter ≠ path) :
    ∃ i, 1 ≤ i ∧ i + 1 < path.length ∧ Pared (path.eraseIdx i) shorter := by
  obtain ⟨i, hi, hsub⟩ := exists_sublist_eraseIdx h.sublist hne
  -- The first candidate stays, and no other is on its level.
  have hfirst : 1 ≤ i := by
    by_contra hzero
    have hi : i = 0 := by omega
    subst hi
    cases path with
    | nil => cases hi
    | cons target path =>
      have hmem : target ∈ path := hsub.subset (List.mem_of_head? h.head)
      exact Nat.lt_irrefl _ ((List.pairwise_cons.1 hclimbs).1 target hmem)
  -- So does the last one.
  have hlast : i + 1 < path.length := by
    by_contra hlarge
    have hi : i = path.length - 1 := by omega
    subst hi
    rw [List.eraseIdx_length_sub_one] at hsub
    have houtermost :=
      List.getLast?_eq_some_getLast (List.ne_nil_of_length_pos (Nat.zero_lt_of_lt hi))
    generalize path.getLast _ = outermost at houtermost
    have hmem : outermost ∈ path.dropLast :=
      hsub.subset (List.mem_of_getLast? (h.last.trans houtermost))
    rw [← List.dropLast_append_getLast? outermost houtermost, List.pairwise_append] at hclimbs
    exact Nat.lt_irrefl _ (hclimbs.2.2 outermost hmem outermost (List.mem_singleton_self _))
  have hpared := pared_eraseIdx hfirst hlast
  exact ⟨i, hfirst, hlast, hsub, h.head.trans hpared.head.symm, h.last.trans hpared.last.symm⟩

/-! ## 2. Paths that bear it -/

/-- Whatever is left out of the path, its text is read as it is meant, and its cost is that of what
is read. -/
structure Sturdy (path : Path) : Prop where
  climbs : path.Pairwise fun nearer farther => nearer.level < farther.level
  legible : ∀ c ∈ path, c.Legible
  /-- No blank behind a fragment is lost; behind the target and its parent there never is a
  blank alone. -/
  closed : ∀ c ∈ path, 2 ≤ c.level → breaksOff c.fragment.toList = false
  priced : ∀ c ∈ path, c.Priced

namespace Sturdy

theorem sublist (h : path.Sturdy) (hsub : shorter.Sublist path) : shorter.Sturdy where
  climbs := h.climbs.sublist hsub
  legible c hc := h.legible c (hsub.subset hc)
  closed c hc := h.closed c (hsub.subset hc)
  priced c hc := h.priced c (hsub.subset hc)

theorem separated (h : path.Sturdy) : path.Separated := by
  rw [Separated, List.isChain_iff_getElem]
  intro i hi
  have hlt :=
    List.pairwise_iff_getElem.1 h.climbs i (i + 1) (Nat.lt_of_succ_lt hi) hi (Nat.lt_succ_self i)
  by_cases hlevel : 2 ≤ path[i + 1].level
  · exact .inr (h.closed _ (List.getElem_mem hi) hlevel)
  · left
    omega

theorem parse_render (h : path.Sturdy) (hne : path ≠ []) :
    parse path.render = .ok [path.intended] := by
  cases path with
  | nil => exact absurd rfl hne
  | cons target path => exact parse_render_of_separated h.legible h.separated

theorem cost_le (h : path.Sturdy) (hsub : shorter.Sublist path) : shorter.cost ≤ path.cost :=
  cost_le_of_sublist hsub fun c hc => (h.priced c hc).exists_cost

end Sturdy

/-! ## 3. What a text tells of its path -/

theorem map_snd_chain (nearer : Candidate) (path : Path) :
    (chain nearer path).map Prod.snd = path.map Candidate.compound := by
  induction path generalizing nearer with
  | nil => rfl
  | cons farther path ih => rw [chain, List.map_cons, List.map_cons, ih]

/-- What a path means holds the meanings of its candidates, one by one. -/
theorem map_compound_eq (hne : path ≠ []) :
    path.map Candidate.compound = path.intended.subject :: path.intended.chain.map Prod.snd := by
  cases path with
  | nil => exact absurd rfl hne
  | cons target path => rw [intended, map_snd_chain, List.map_cons]

theorem length_eq_of_intended_eq (hne : path ≠ []) (hne' : shorter ≠ [])
    (h : path.intended = shorter.intended) :
    path.length = shorter.length := by
  have hcompounds : path.map Candidate.compound = shorter.map Candidate.compound := by
    rw [map_compound_eq hne, map_compound_eq hne', h]
  rw [← List.length_map Candidate.compound, hcompounds, List.length_map]

theorem Sturdy.cost_eq (h : path.Sturdy) :
    path.cost = Cost.sum ((path.map Candidate.compound).map Compound.cost) := by
  rw [cost, List.map_map]
  congr 1
  exact List.map_congr_left fun c hc => (h.priced c hc).cost_eq (h.legible c hc)

theorem Sturdy.cost_eq_of_intended_eq (h : path.Sturdy) (h' : shorter.Sturdy) (hne : path ≠ [])
    (hne' : shorter ≠ []) (heq : path.intended = shorter.intended) : path.cost = shorter.cost := by
  rw [h.cost_eq, h'.cost_eq, map_compound_eq hne, map_compound_eq hne', heq]

/-- **Paths that are written alike mean the same.** -/
theorem Sturdy.intended_eq (h : path.Sturdy) (h' : shorter.Sturdy) (hne : path ≠ [])
    (hne' : shorter ≠ []) (hrender : path.render = shorter.render) :
    path.intended = shorter.intended := by
  have hparse := h.parse_render hne
  rw [hrender, h'.parse_render hne'] at hparse
  injection hparse with hparse
  injection hparse with hparse
  exact hparse.symm

/-- Where a candidate was left out of a path without a gap, the only gap is now. -/
theorem idxOf_descendant_chain {nearer : Candidate} (hgapless : Quest.Gapless (nearer :: path))
    {k : Nat} (hk : k + 1 < path.length) :
    ((chain nearer (path.eraseIdx k)).map Prod.fst).idxOf .descendant = k := by
  induction k generalizing nearer path with
  | zero =>
    match path with
    | left :: farther :: path =>
      rw [Quest.Gapless, List.isChain_cons_cons, List.isChain_cons_cons] at hgapless
      have hgap : nearer.level + 1 ≠ farther.level := by omega
      rw [List.eraseIdx_zero, List.tail_cons, chain, combinator, if_neg hgap, List.map_cons,
        List.idxOf_cons_self]
  | succ k ih =>
    cases path with
    | nil => cases hk
    | cons farther path =>
      rw [Quest.Gapless, List.isChain_cons_cons] at hgapless
      rw [List.eraseIdx_cons_succ, chain, combinator, if_pos hgapless.1, List.map_cons,
        List.idxOf_cons_ne _ (show Combinator.child ≠ .descendant by decide),
        ih hgapless.2 (Nat.lt_of_succ_lt_succ hk)]

/-- The text of a path without a gap tells which candidate was left out. -/
theorem eq_of_intended_eraseIdx (hgapless : Quest.Gapless path) {i j : Nat} (hi : 1 ≤ i)
    (hi' : i + 1 < path.length) (hj : 1 ≤ j) (hj' : j + 1 < path.length)
    (h : intended (path.eraseIdx i) = intended (path.eraseIdx j)) : i = j := by
  obtain ⟨k, rfl⟩ := Nat.exists_eq_add_of_le' hi
  obtain ⟨l, rfl⟩ := Nat.exists_eq_add_of_le' hj
  cases path with
  | nil => cases hi'
  | cons target path =>
    rw [List.eraseIdx_cons_succ, List.eraseIdx_cons_succ, intended, intended,
      Selector.Complex.mk.injEq] at h
    have hk := idxOf_descendant_chain hgapless (Nat.lt_of_succ_lt_succ hi')
    rw [h.2, idxOf_descendant_chain hgapless (Nat.lt_of_succ_lt_succ hj')] at hk
    rw [hk]

end Path

/-! ## 4. Variants -/

namespace Quest

/-- The document finds the target and nothing else. -/
def Accepted (q : Quest) (path : Path) : Prop :=
  q.document.queryAll path.render q.scope = .ok [q.target]

/-- The path with candidates between the first and the last left out, not too short and still with
the target as its only answer. -/
structure Variant (q : Quest) (path shorter : Path) : Prop extends Path.Pared path shorter where
  two_le : 2 ≤ shorter.length
  long : q.settings.optimizedMinLength ≤ shorter.length
  accepted : q.Accepted shorter

variable {q : Quest} {path longer shorter : Path}

theorem Variant.of_pared (h : q.Variant longer shorter) (hpared : path.Pared longer) :
    q.Variant path shorter :=
  ⟨hpared.trans h.toPared, h.two_le, h.long, h.accepted⟩

/-- **Between a path with one answer and one that leads to the target alone, all lead to the
target alone.** -/
theorem Accepted.of_pared (hwell : q.document.WellFormed) (hsturdy : path.Sturdy)
    (hlone : q.Lone path) (hlonger : path.Pared longer) (hshorter : longer.Pared shorter)
    (h : q.Accepted shorter) : q.Accepted longer := by
  obtain ⟨x, hx⟩ := hlone
  have hsturdy' := hsturdy.sublist hlonger.sublist
  have hsturdy'' := hsturdy'.sublist hshorter.sublist
  have hhead := hlonger.head
  have hhead' := hshorter.head
  match path, longer, shorter with
  | [], [], shorter =>
    have hnil : shorter = [] := List.sublist_nil.1 hshorter.sublist
    rwa [hnil] at h
  | target :: path, _ :: longer, _ :: shorter =>
    cases hhead
    cases hhead'
    -- The answers of the path are among those of the longer one, and these among those of the
    -- shorter one.
    obtain ⟨ids, hids, hx'⟩ := Path.queryAll_sublist hwell hsturdy.legible hsturdy.climbs
      hsturdy.separated hsturdy'.separated (List.cons_sublist_cons.1 hlonger.sublist) hx
    obtain ⟨more, hmore, hids'⟩ := Path.queryAll_sublist hwell hsturdy'.legible hsturdy'.climbs
      hsturdy'.separated hsturdy''.separated (List.cons_sublist_cons.1 hshorter.sublist) hids
    rw [Accepted, hmore] at h
    cases h
    rw [Accepted, hids, hids'.eq_of_length_le hx'.length_le]

/-- A variant is reached by leaving out one candidate first, and what is left then is accepted
as well. -/
theorem Variant.exists_eraseIdx (hwell : q.document.WellFormed) (hsturdy : path.Sturdy)
    (hlone : q.Lone path) (hlonger : path.Pared longer) (h : q.Variant longer shorter)
    (hne : shorter ≠ longer) :
    ∃ i, 1 ≤ i ∧ i + 1 < longer.length ∧ q.Accepted (longer.eraseIdx i) ∧
      q.Variant (longer.eraseIdx i) shorter := by
  obtain ⟨i, hfirst, hlast, hpared⟩ :=
    h.toPared.exists_eraseIdx (hsturdy.sublist hlonger.sublist).climbs hne
  have hnext := hlonger.trans (Path.pared_eraseIdx hfirst hlast)
  exact ⟨i, hfirst, hlast, h.accepted.of_pared hwell hsturdy hlone hnext hpared, hpared, h.two_le,
    h.long, h.accepted⟩

/-! ## 5. Paths of the climb -/

theorem priced_of_mem_levels {mode : Breadth} {level : Level} (h : level ∈ q.levels mode)
    {c : Candidate} (hc : c ∈ level) : c.Priced := by
  obtain ⟨e, index, d, rfl⟩ := exists_of_mem_levels h
  exact Level.priced_of_mem_build hc

/-- **A path that is found bears it that candidates are left out**, if no blank can be lost
behind a fragment. -/
theorem sturdy_of_settle_uniquePath (htarget : q.document.isElement q.target = true)
    (hpath : q.document.settle (q.uniquePath .all) = .ok (some path))
    (hclosed : ∀ c ∈ path, 2 ≤ c.level → breaksOff c.fragment.toList = false) :
    q.Lone path ∧ Gapless path ∧ path.Sturdy := by
  obtain ⟨hlone, mode, n, hne, hchoice⟩ := mem_choices_of_settle_uniquePath hpath
  rw [← combinations_eq_choices] at hchoice
  obtain ⟨hown, hgapless⟩ := own_of_mem_combinations htarget hne hchoice
  obtain ⟨l, hparse⟩ := hlone.exists_parse
  refine ⟨hlone, hgapless, hown.climbs, hown.legible_of_parse hgapless hparse, hclosed, ?_⟩
  intro c hc
  obtain ⟨hlength, hforall⟩ := List.forall₂_iff_get.1 (forall₂_of_mem_combinations hchoice)
  obtain ⟨⟨l, hl⟩, rfl⟩ := List.get_of_mem hc
  have hlevel := List.get_mem _ ⟨l, Nat.lt_of_lt_of_eq hl hlength⟩
  exact priced_of_mem_levels (List.mem_of_mem_take hlevel) (hforall l hl _)

end Quest

end UniqueSelector
