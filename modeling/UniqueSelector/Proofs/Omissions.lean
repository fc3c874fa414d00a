import UniqueSelector.Proofs.Meaning
import UniqueSelector.Proofs.Rendering
import Mathlib.Data.Finset.Range

/-!
# Omissions — selectors from which levels are left out

Compounds behind the subject may be left out; two neighbours between which something was left out
only stand one above the other. If each step of a chain leads upward, this loses nothing that fits,
since what is above a node that is above another is above it as well. It does not matter how deep in
the chain the gaps are and which nodes the matching has settled on, so the more is left out, the
more fits.
-/

namespace UniqueSelector

namespace Selector

/-! ## 1. What is left of a chain -/

/-- The combinator leads from a node to what is above it. -/
def Combinator.Upward (k : Combinator) : Prop := k = .child ∨ k = .descendant

/-- Each step of the chain leads upward. -/
def Complex.Upward (s : Complex) : Prop := ∀ link ∈ s.chain, link.1.Upward

instance (s : Complex) : Decidable s.Upward := inferInstanceAs (Decidable (∀ link ∈ s.chain, _ ∨ _))

/-- The chain, whose first compound stands at `place`, without the compounds at the places in
`omitted`. Behind a `gap`, where a compound was left out, the next one that stays is somewhere
above. -/
def thin (omitted : Finset Nat) : (place : Nat) → (gap : Bool) → List (Combinator × Compound) →
    List (Combinator × Compound)
  | _, _, [] => []
  | place, gap, (k, c) :: chain =>
    if place ∈ omitted then thin omitted (place + 1) true chain
    else (if gap then .descendant else k, c) :: thin omitted (place + 1) false chain

/-- The selector without the compounds at some places of its chain, the nearest place being 0. -/
def Complex.without (s : Complex) (omitted : Finset Nat) : Complex :=
  ⟨s.subject, thin omitted 0 false s.chain⟩

/-- The places of the chain with a compound farther out. -/
def Complex.inner (s : Complex) : Finset Nat := Finset.range (s.chain.length - 1)

theorem thin_of_forall_lt {omitted : Finset Nat} {place : Nat} (h : ∀ i ∈ omitted, i < place)
    (chain : List (Combinator × Compound)) : thin omitted place false chain = chain := by
  induction chain generalizing place with
  | nil => rfl
  | cons link chain ih =>
    have hplace : place ∉ omitted := fun hmem => Nat.lt_irrefl place (h place hmem)
    rw [thin, if_neg hplace, ih fun i hi => Nat.lt_succ_of_lt (h i hi)]
    rfl

@[simp] theorem Complex.without_empty (s : Complex) : s.without ∅ = s := by
  rw [without, thin_of_forall_lt fun i hi => absurd hi (Finset.notMem_empty i)]

/-- Where one compound is left out, its neighbours are joined. -/
theorem thin_singleton (near far : List (Combinator × Compound)) (k k' : Combinator)
    (c c' : Compound) (place : Nat) :
    thin {place + near.length} place false (near ++ (k, c) :: (k', c') :: far) =
      near ++ (.descendant, c') :: far := by
  induction near generalizing place with
  | nil =>
    have hnext : place + 1 ∉ ({place} : Finset Nat) := by simp
    have hfar : ∀ i ∈ ({place} : Finset Nat), i < place + 2 := by simp
    rw [List.nil_append, List.length_nil, Nat.add_zero, thin,
      if_pos (Finset.mem_singleton_self place), thin, if_neg hnext, thin_of_forall_lt hfar]
    rfl
  | cons link near ih =>
    have hplace : place ∉ ({place + (link :: near).length} : Finset Nat) := by simp
    have hlength : place + (link :: near).length = place + 1 + near.length := by
      rw [List.length_cons]
      omega
    rw [List.cons_append, thin, if_neg hplace, hlength, ih]
    rfl

theorem Complex.without_singleton {s : Complex} {near far : List (Combinator × Compound)}
    {k k' : Combinator} {c c' : Compound} (h : s.chain = near ++ (k, c) :: (k', c') :: far) :
    s.without {near.length} = ⟨s.subject, near ++ (.descendant, c') :: far⟩ := by
  have hthin := thin_singleton near far k k' c c' 0
  rw [Nat.zero_add] at hthin
  rw [without, h, hthin]

/-! ## 2. What fits -/

variable {t : Document}

theorem Combinator.Upward.isDescendantOf (hwell : t.WellFormed) {k : Combinator} (hk : k.Upward)
    {x y : NodeId} (h : y ∈ k.reach t x) : t.isDescendantOf x y = true := by
  rcases hk with rfl | rfl
  · -- The parent is one step away.
    rw [reach, Option.mem_toList] at h
    apply hwell.isDescendantOf_iff.2
    exact ⟨0, by rw [ascend, (Document.parent_of_parentElement h).1]; rfl⟩
  · rw [reach] at h
    rwa [Document.isDescendantOf, List.contains_iff_mem]

/-- **What fits a chain fits it when more is left out.** The matching may even begin farther down,
if the chain begins with a gap. -/
theorem chainMatches_thin (hwell : t.WellFormed) {few many : Finset Nat} (hsub : few ⊆ many)
    {chain : List (Combinator × Compound)} (hupward : ∀ link ∈ chain, link.1.Upward) {place : Nat}
    {gap gap' : Bool} {x y : NodeId} (hgap : gap' = false → gap = false ∧ y = x)
    (hbelow : y = x ∨ t.isDescendantOf y x = true)
    (h : chainMatches t (thin few place gap chain) x = true) :
    chainMatches t (thin many place gap' chain) y = true := by
  -- Along the chain: `y` stays at `x` or below it, and it may fall behind only where something was
  -- left out.
  induction chain generalizing place gap gap' x y with
  | nil => rfl
  | cons link chain ih =>
    obtain ⟨k, c⟩ := link
    have hrest : ∀ link ∈ chain, link.1.Upward := fun link hlink => hupward link (.tail _ hlink)
    rw [thin] at h ⊢
    by_cases hfew : place ∈ few
    · rw [if_pos hfew] at h
      rw [if_pos (hsub hfew)]
      exact ih hrest (fun hfalse => by cases hfalse) hbelow h
    · rw [if_neg hfew, chainMatches, List.any_eq_true] at h
      obtain ⟨z, hz, hmatches⟩ := h
      rw [Bool.and_eq_true] at hmatches
      have hk : Combinator.Upward (if gap then .descendant else k) := by
        cases gap with
        | true => exact .inr rfl
        | false => exact hupward (k, c) (.head chain)
      have hxz := hk.isDescendantOf hwell hz
      have hyz : t.isDescendantOf y z = true := by
        rcases hbelow with rfl | hyx
        · exact hxz
        · exact hwell.isDescendantOf_trans hyx hxz
      by_cases hmany : place ∈ many
      · -- The node of this compound is passed over, and the rest goes on from above `y`.
        rw [if_pos hmany]
        exact ih hrest (fun hfalse => by cases hfalse) (.inr hyz) hmatches.2
      · rw [if_neg hmany, chainMatches, List.any_eq_true]
        refine ⟨z, ?_, ?_⟩
        · cases gap' with
          | false =>
            obtain ⟨rfl, rfl⟩ := hgap rfl
            exact hz
          | true => exact List.contains_iff_mem.1 hyz
        · rw [hmatches.1, ih hrest (fun _ => ⟨rfl, rfl⟩) (.inl rfl) hmatches.2]
          rfl

namespace Complex

variable {s : Complex} (hwell : t.WellFormed) (hupward : s.Upward)
include hwell hupward

/-- **The more is left out, the more fits.** -/
theorem matches_without {few many : Finset Nat} (hsub : few ⊆ many) {x : NodeId}
    (h : (s.without few).matches t x = true) : (s.without many).matches t x = true := by
  rw [Complex.matches, Bool.and_eq_true] at h ⊢
  exact ⟨h.1, chainMatches_thin hwell hsub hupward (fun _ => ⟨rfl, rfl⟩) (.inl rfl) h.2⟩

theorem matches_without_of_matches (omitted : Finset Nat) {x : NodeId} (h : s.matches t x = true) :
    (s.without omitted).matches t x = true := by
  rw [← s.without_empty] at h
  exact matches_without hwell hupward (Finset.empty_subset omitted) h

end Complex

/-! ## 3. What fits in a scope -/

/-- The nodes below `scope` that fit, in tree order. -/
def Complex.answers (s : Complex) (t : Document) (scope : NodeId) : List NodeId :=
  (t.descendants scope).filter (s.matches t)

theorem Complex.answers_sublist {s s' : Complex}
    (h : ∀ x, s.matches t x = true → s'.matches t x = true) (scope : NodeId) :
    (s.answers t scope).Sublist (s'.answers t scope) :=
  List.monotone_filter_right _ h

/-- **If one node alone fits when much is left out, then it alone fits when some of that is put
back**, as long as the whole selector fits anything at all. -/
theorem Complex.answers_without (hwell : t.WellFormed) {s : Complex} (hupward : s.Upward)
    {few many : Finset Nat} (hsub : few ⊆ many) {scope x : NodeId} (hfits : s.answers t scope ≠ [])
    (h : (s.without many).answers t scope = [x]) : (s.without few).answers t scope = [x] := by
  -- The answers with few left out lie between those of the whole and the one with many left out.
  have hmore := answers_sublist (fun _ hx => matches_without_of_matches hwell hupward few hx) scope
  have hmany := answers_sublist (fun _ hx => matches_without hwell hupward hsub hx) scope
  rw [h, List.sublist_singleton] at hmany
  refine hmany.resolve_left fun hnone => hfits ?_
  rw [hnone, List.sublist_nil] at hmore
  exact hmore

end Selector

/-! ## 4. What is left of a path -/

open Selector

namespace Path

theorem upward_combinator (nearer farther : Candidate) : (combinator nearer farther).Upward := by
  rw [combinator]
  split
  · exact .inl rfl
  · exact .inr rfl

theorem upward_chain (nearer : Candidate) (path : Path) :
    ∀ link ∈ chain nearer path, link.1.Upward := by
  induction path generalizing nearer with
  | nil => exact fun _ h => by cases h
  | cons farther path ih =>
    intro link hlink
    rcases List.mem_cons.1 hlink with rfl | hlink
    · exact upward_combinator nearer farther
    · exact ih farther link hlink

theorem upward_intended (path : Path) : path.intended.Upward := by
  cases path with
  | nil => exact fun _ h => by cases h
  | cons target path => exact upward_chain target path

theorem length_chain (nearer : Candidate) (path : Path) :
    (chain nearer path).length = path.length := by
  induction path generalizing nearer with
  | nil => rfl
  | cons farther path ih => rw [chain, List.length_cons, List.length_cons, ih]

/-- Candidates that are left out are compounds that are left out. The chain that is left may begin
on a lower level, at `start`, if there is a gap behind it. -/
theorem chain_of_sublist {path shorter : Path} (hsub : shorter.Sublist path)
    {start nearer : Candidate}
    (hclimbs : (nearer :: path).Pairwise fun nearer farther => nearer.level < farther.level)
    {omitted : Finset Nat} {place : Nat}
    (homitted : ∀ i c, path[i]? = some c → (place + i ∈ omitted ↔ c ∉ shorter)) {gap : Bool}
    (hstart : gap = false ∧ start = nearer ∨ gap = true ∧ start.level < nearer.level) :
    chain start shorter = thin omitted place gap (chain nearer path) := by
  induction hsub generalizing start nearer place gap with
  | slnil => rfl
  | @cons shorter path farther hsub ih =>
    -- On its level there is no other candidate, so it is in no part of what is farther out.
    rw [List.pairwise_cons] at hclimbs
    have hlevel := hclimbs.1 farther (.head path)
    have hnot : farther ∉ shorter := fun hmem =>
      Nat.lt_irrefl _ ((List.pairwise_cons.1 hclimbs.2).1 farther (hsub.subset hmem))
    have hplace : place ∈ omitted := (homitted 0 farther rfl).2 hnot
    rw [chain, thin, if_pos hplace]
    apply ih hclimbs.2
    · intro i c hi
      rw [Nat.add_assoc, Nat.add_comm 1 i]
      exact homitted (i + 1) c hi
    · rcases hstart with ⟨rfl, rfl⟩ | ⟨rfl, hlow⟩
      · exact .inr ⟨rfl, hlevel⟩
      · exact .inr ⟨rfl, Nat.lt_trans hlow hlevel⟩
  | @cons_cons shorter path farther hsub ih =>
    rw [List.pairwise_cons] at hclimbs
    have hlevel := hclimbs.1 farther (.head path)
    have hplace : place ∉ omitted := fun hmem => (homitted 0 farther rfl).1 hmem (.head shorter)
    have hlink : combinator start farther = if gap then .descendant
        else combinator nearer farther := by
      rcases hstart with ⟨rfl, rfl⟩ | ⟨rfl, hlow⟩
      · rfl
      · rw [if_pos rfl, combinator, if_neg (by omega)]
    have hrest : ∀ i c, path[i]? = some c → (place + 1 + i ∈ omitted ↔ c ∉ shorter) := by
      intro i c hi
      have hne : c ≠ farther := by
        rintro rfl
        exact Nat.lt_irrefl _ ((List.pairwise_cons.1 hclimbs.2).1 c (List.mem_of_getElem? hi))
      have hcandidate := homitted (i + 1) c hi
      rw [List.mem_cons, or_iff_right hne] at hcandidate
      rwa [Nat.add_assoc, Nat.add_comm 1 i]
    have hchain : chain farther shorter = thin omitted (place + 1) false (chain farther path) :=
      ih hclimbs.2 hrest (.inl ⟨rfl, rfl⟩)
    rw [chain, chain, thin, if_neg hplace, hlink, hchain]

/-- The places of the chain whose candidates are not in `shorter`. -/
def omitted (path shorter : Path) : Finset Nat :=
  (Finset.range (path.length - 1)).filter fun i => path[i + 1]?.any (fun c => !shorter.contains c)

theorem mem_omitted {path shorter : Path} {i : Nat} {c : Candidate} (hc : path[i + 1]? = some c) :
    i ∈ path.omitted shorter ↔ c ∉ shorter := by
  have hlt := (List.getElem?_eq_some_iff.1 hc).1
  rw [omitted, Finset.mem_filter, Finset.mem_range, and_iff_right (by omega), hc, Option.any_some,
    Bool.not_eq_true', ← Bool.not_eq_true, List.contains_iff_mem]

theorem omitted_subset (path : Path) {longer shorter : Path} (hsub : shorter ⊆ longer) :
    path.omitted longer ⊆ path.omitted shorter := by
  intro i hi
  obtain ⟨hrange, hany⟩ := Finset.mem_filter.1 hi
  obtain ⟨c, hc, -⟩ := (Option.any_eq_true _ _).1 hany
  rw [mem_omitted hc] at hi ⊢
  exact fun hmem => hi (hsub hmem)

/-- **What a path means with candidates left out** is what it means, with their compounds
left out. -/
theorem intended_of_sublist {target : Candidate} {path shorter : Path} (hsub : shorter.Sublist path)
    (hclimbs : (target :: path).Pairwise fun nearer farther => nearer.level < farther.level) :
    intended (target :: shorter) =
      (intended (target :: path)).without (omitted (target :: path) (target :: shorter)) := by
  rw [intended, intended, Complex.without]
  congr 1
  refine chain_of_sublist hsub hclimbs ?_ (.inl ⟨rfl, rfl⟩)
  intro i c hi
  have hne : c ≠ target := by
    rintro rfl
    exact Nat.lt_irrefl _ ((List.pairwise_cons.1 hclimbs).1 c (List.mem_of_getElem? hi))
  have hi' : (target :: path)[i + 1]? = some c := hi
  rw [Nat.zero_add, mem_omitted hi', List.mem_cons, or_iff_right hne]

end Path

end UniqueSelector
