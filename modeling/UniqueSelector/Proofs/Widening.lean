import UniqueSelector.Proofs.Omissions
import UniqueSelector.Proofs.Settled

/-!
# Widening — a path that says less fits more

Whatever fits a path fits it still when candidates behind the target are left out: a step from child
to parent is one of the ways from a node to what is above it. So if a whole path fits several
elements, each of its beginnings does. A path without a gap, on the other hand, says of each of its
candidates where the node stands that it fits.
-/

namespace UniqueSelector

open Selector

/-! ## 1. Fitting -/

/-- A chain without a gap leads from parent to parent, and each of them fits. -/
theorem chainMatches_gapless {t : Document} {nearer : Candidate} {path : Path}
    (hgapless : Quest.Gapless (nearer :: path)) {x : NodeId} :
    chainMatches t (Path.chain nearer path) x = true ↔
      ∀ l c, path[l]? = some c → ∃ y, ascend t.parentElement (l + 1) x = some y ∧
      c.compound.matches t y = true := by
  induction path generalizing nearer x with
  | nil => exact iff_of_true rfl fun l c hc => by cases hc
  | cons farther path ih =>
    rw [Quest.Gapless, List.isChain_cons_cons] at hgapless
    rw [Path.chain, Path.combinator, if_pos hgapless.1, chainMatches, Combinator.reach,
      List.any_eq_true]
    constructor
    · rintro ⟨y, hy, hmatches⟩
      rw [Option.mem_toList] at hy
      rw [Bool.and_eq_true] at hmatches
      have hrest := (ih hgapless.2).1 hmatches.2
      intro l c hc
      rw [ascend, hy, Option.bind_some]
      cases l with
      | zero =>
        cases hc
        exact ⟨y, rfl, hmatches.1⟩
      | succ l => exact hrest l c hc
    · intro h
      obtain ⟨y, hy, hmatches⟩ := h 0 farther rfl
      rw [ascend] at hy
      obtain ⟨z, hz, hy⟩ := Option.bind_eq_some_iff.1 hy
      cases hy
      refine ⟨y, Option.mem_toList.2 hz, ?_⟩
      have hrest : chainMatches t (Path.chain farther path) y = true := by
        apply (ih hgapless.2).2
        intro l c hc
        obtain ⟨z', hz', hc'⟩ := h (l + 1) c hc
        rw [ascend, hz, Option.bind_some] at hz'
        exact ⟨z', hz', hc'⟩
      rw [hmatches, hrest]
      rfl

namespace Path

variable {t : Document}

/-- **A path without a gap tells of each step where it leads**: the candidate on each level fits the
node that is as many elements above. -/
theorem matches_intended_gapless {path : Path} (hne : path ≠ []) (hgapless : Quest.Gapless path)
    {x : NodeId} :
    Complex.matches path.intended t x = true ↔
      ∀ l c, path[l]? = some c → ∃ y, ascend t.parentElement l x = some y ∧
      c.compound.matches t y = true := by
  cases path with
  | nil => exact absurd rfl hne
  | cons target path =>
    rw [intended, Complex.matches, Bool.and_eq_true, chainMatches_gapless hgapless]
    constructor
    · rintro ⟨hsubject, hchain⟩ l c hc
      cases l with
      | zero =>
        cases hc
        exact ⟨x, rfl, hsubject⟩
      | succ l => exact hchain l c hc
    · intro h
      refine ⟨?_, fun l c hc => h (l + 1) c hc⟩
      obtain ⟨y, hy, hmatches⟩ := h 0 target rfl
      cases hy
      exact hmatches

/-- What fits a path fits it still when candidates behind the target are left out. -/
theorem matches_intended_of_sublist (hwell : t.WellFormed) {target : Candidate}
    {path shorter : Path} (hsub : shorter.Sublist path)
    (hclimbs : (target :: path).Pairwise fun nearer farther => nearer.level < farther.level)
    {x : NodeId} (h : Complex.matches (intended (target :: path)) t x = true) :
    Complex.matches (intended (target :: shorter)) t x = true := by
  rw [intended_of_sublist hsub hclimbs]
  exact Complex.matches_without_of_matches hwell (upward_intended _) _ h

/-! ## 2. Answers -/

theorem queryAll_render {path : Path} (hne : path ≠ []) (hlegible : ∀ c ∈ path, c.Legible)
    (hseparated : path.Separated) {scope : NodeId} {ids : List NodeId} :
    t.queryAll path.render scope = .ok ids ↔ (scope = Document.root ∨ t.isElement scope = true) ∧
      ids = (t.descendants scope).filter (Complex.matches path.intended t) := by
  cases path with
  | nil => exact absurd rfl hne
  | cons target path =>
    have hmatches : Selectors.matches [intended (target :: path)] t =
        Complex.matches (intended (target :: path)) t := by
      funext x
      exact Bool.or_false _
    rw [Document.queryAll_eq_ok, parse_render_of_separated hlegible hseparated]
    constructor
    · rintro ⟨l, hl, hscope, rfl⟩
      cases hl
      exact ⟨hscope, by rw [hmatches]⟩
    · rintro ⟨hscope, rfl⟩
      exact ⟨_, rfl, hscope, by rw [hmatches]⟩

/-- **Leaving out candidates behind the target loses no answer**, as long as the texts are read as
they are meant. -/
theorem queryAll_sublist (hwell : t.WellFormed) {target : Candidate} {path shorter : Path}
    (hlegible : ∀ c ∈ target :: path, c.Legible)
    (hclimbs : (target :: path).Pairwise fun nearer farther => nearer.level < farther.level)
    (hseparated : Separated (target :: path)) (hshorter : Separated (target :: shorter))
    (hsub : shorter.Sublist path) {scope : NodeId} {ids : List NodeId}
    (h : t.queryAll (render (target :: path)) scope = .ok ids) :
    ∃ more, t.queryAll (render (target :: shorter)) scope = .ok more ∧ ids.Sublist more := by
  obtain ⟨hscope, rfl⟩ := (queryAll_render (List.cons_ne_nil _ _) hlegible hseparated).1 h
  have hlegible' : ∀ c ∈ target :: shorter, c.Legible := fun c hc =>
    hlegible c ((hsub.cons_cons target).subset hc)
  refine ⟨_, (queryAll_render (List.cons_ne_nil _ _) hlegible' hshorter).2 ⟨hscope, rfl⟩, ?_⟩
  exact List.monotone_filter_right _ fun x => matches_intended_of_sublist hwell hsub hclimbs

end Path

/-! ## 3. Own paths that are answered -/

namespace Quest

variable {q : Quest} {path : Path}

theorem shared_iff :
    q.Shared path ↔ ∃ ids, q.document.queryAll path.render q.scope = .ok ids ∧ 2 ≤ ids.length := by
  constructor
  · rintro ⟨x, y, ids, h⟩
    refine ⟨_, h, ?_⟩
    rw [List.length_cons, List.length_cons]
    omega
  · rintro ⟨ids, h, hlength⟩
    match ids with
    | x :: y :: ids => exact ⟨x, y, ids, h⟩

theorem Lone.exists_parse (h : q.Lone path) : ∃ l, parse path.render = .ok l := by
  obtain ⟨x, hx⟩ := h
  obtain ⟨l, hl, -⟩ := Document.queryAll_eq_ok.1 hx
  exact ⟨l, hl⟩

theorem Shared.exists_parse (h : q.Shared path) : ∃ l, parse path.render = .ok l := by
  obtain ⟨x, y, ids, hids⟩ := h
  obtain ⟨l, hl, -⟩ := Document.queryAll_eq_ok.1 hids
  exact ⟨l, hl⟩

/-- If an own path without a gap is read at all, none of its candidates is mute. -/
theorem Own.spells_of_parse (h : q.Own path) (hgapless : Gapless path) {l : Selectors}
    (hparse : parse path.render = .ok l) {c : Candidate} (hc : c ∈ path) :
    ∃ id e, q.way[c.level]? = some id ∧ q.document.element? id = some e ∧
      c.Spells e (q.document.elementIndex id) := by
  have hcases : ∀ c ∈ path, (∃ id e, q.way[c.level]? = some id ∧ q.document.element? id = some e ∧
      c.Spells e (q.document.elementIndex id)) ∨ c.Mute := by
    intro c hc
    obtain ⟨id, e, hid, he, hnames⟩ := h.names c hc
    exact hnames.spells_or_mute.imp_left fun hspells => ⟨id, e, hid, he, hspells⟩
  apply (hcases c hc).resolve_right
  intro hmute
  obtain ⟨target, rest, rfl, -⟩ := h.exists_cons
  refine Path.parse_render_ne_ok (fun c hc => ?_) hgapless ⟨c, hc, hmute⟩ l hparse
  rcases hcases c hc with ⟨_, _, _, _, hspells⟩ | hmute
  · exact .inl hspells.legible
  · exact .inr hmute

theorem Own.legible_of_parse (h : q.Own path) (hgapless : Gapless path) {l : Selectors}
    (hparse : parse path.render = .ok l) : ∀ c ∈ path, c.Legible := by
  intro c hc
  obtain ⟨_, _, _, _, hspells⟩ := h.spells_of_parse hgapless hparse hc
  exact hspells.legible

/-- **If an own path without a gap fits several elements, then so does each of its beginnings.** -/
theorem Own.shared_take (hwell : q.document.WellFormed) (h : q.Own path) (hgapless : Gapless path)
    (hshared : q.Shared path) {n : Nat} (hn : 0 < n) : q.Shared (path.take n) := by
  obtain ⟨l, hparse⟩ := hshared.exists_parse
  have hlegible := h.legible_of_parse hgapless hparse
  have hclimbs := h.climbs
  obtain ⟨target, rest, rfl, -⟩ := h.exists_cons
  obtain ⟨n, rfl⟩ := Nat.exists_eq_add_of_le' hn
  have htake : Gapless ((target :: rest).take (n + 1)) := List.IsChain.take hgapless (n + 1)
  rw [shared_iff] at hshared ⊢
  obtain ⟨ids, hids, hlength⟩ := hshared
  rw [List.take_succ_cons] at htake ⊢
  obtain ⟨more, hmore, hsub⟩ := Path.queryAll_sublist hwell hlegible hclimbs
    (separated_of_gapless hgapless) (separated_of_gapless htake) (List.take_sublist n rest) hids
  exact ⟨more, hmore, Nat.le_trans hlength hsub.length_le⟩

end Quest

end UniqueSelector
