import UniqueSelector.Proofs.Constructed
import UniqueSelector.Proofs.Places
import UniqueSelector.Selector.Match

/-!
# Meaning — what a chain of compounds says

Where a combinator leads to is found by following links, one choice after another. What it says is a
matter of parents and of lists of children. The two agree, and no choice is missed: a complex
selector fits a node exactly if each of its compounds can be given a node so that neighbours stand
to each other as the combinators say.
-/

namespace UniqueSelector

/-! ## 1. Siblings -/

namespace Document

/-- The children of the parent that come before `id`, from the first to the last. -/
def PrecededBy (t : Document) (id : NodeId) (left : List NodeId) : Prop :=
  ∃ parent right, t.parent id = some parent ∧ t.children parent = left ++ id :: right

namespace WellFormed

variable {t : Document} (h : t.WellFormed)
include h

theorem exists_precededBy {id parent : NodeId} (hparent : t.parent id = some parent) :
    ∃ left, t.PrecededBy id left := by
  obtain ⟨left, right, hsplit⟩ := List.append_of_mem (h.mem_children.2 hparent)
  exact ⟨left, parent, right, hparent, hsplit⟩

/-- The links to the left lead to what stands on the left in the list of children. -/
theorem precedingSiblings_of_precededBy {id : NodeId} {left : List NodeId}
    (hleft : t.PrecededBy id left) :
    t.precedingSiblings id = left.reverse := by
  obtain ⟨parent, right, -, hsplit⟩ := hleft
  exact h.precedingSiblings_of_split hsplit

theorem mem_precedingSiblings {id other : NodeId} :
    other ∈ t.precedingSiblings id ↔ ∃ left, t.PrecededBy id left ∧ other ∈ left := by
  constructor
  · intro hother
    cases hparent : t.parent id with
    | none =>
      rw [h.precedingSiblings_of_alone hparent] at hother
      cases hother
    | some parent =>
      obtain ⟨left, hleft⟩ := h.exists_precededBy hparent
      rw [h.precedingSiblings_of_precededBy hleft, List.mem_reverse] at hother
      exact ⟨left, hleft, hother⟩
  · rintro ⟨left, hleft, hother⟩
    rw [h.precedingSiblings_of_precededBy hleft, List.mem_reverse]
    exact hother

/-- The nearest element on the left is the last one among those on the left. -/
theorem previousElement_eq_some {id other : NodeId} :
    t.previousElement id = some other ↔
      ∃ left, t.PrecededBy id left ∧ (left.filter t.isElement).getLast? = some other := by
  have hlast : ∀ left : List NodeId, left.reverse.find? t.isElement =
      (left.filter t.isElement).getLast? := by
    intro left
    rw [← List.head?_filter, List.filter_reverse, List.head?_reverse]
  rw [previousElement]
  constructor
  · intro hother
    cases hparent : t.parent id with
    | none =>
      rw [h.precedingSiblings_of_alone hparent] at hother
      cases hother
    | some parent =>
      obtain ⟨left, hleft⟩ := h.exists_precededBy hparent
      rw [h.precedingSiblings_of_precededBy hleft, hlast] at hother
      exact ⟨left, hleft, hother⟩
  · rintro ⟨left, hleft, hother⟩
    rw [h.precedingSiblings_of_precededBy hleft, hlast, hother]

end WellFormed

end Document

namespace Selector

/-! ## 2. Combinators -/

/-- What a combinator says of a node and the next one outward. -/
def Combinator.Relates (k : Combinator) (t : Document) (inner outer : NodeId) : Prop :=
  match k with
  | .descendant => t.Above outer inner
  | .child => t.parent inner = some outer
  | .nextSibling =>
    ∃ left, t.PrecededBy inner left ∧ (left.filter t.isElement).getLast? = some outer
  | .subsequentSibling => ∃ left, t.PrecededBy inner left ∧ outer ∈ left

/-- **A combinator leads to the elements of which it is true.** -/
theorem Combinator.mem_reach {t : Document} (h : t.WellFormed) (k : Combinator)
    {inner outer : NodeId} (houter : t.isElement outer = true) :
    outer ∈ k.reach t inner ↔ k.Relates t inner outer := by
  cases k with
  | descendant =>
    rw [reach, Relates, ← h.isDescendantOf_iff_above, Document.isDescendantOf,
      List.contains_iff_mem]
  | child =>
    rw [reach, Relates, Option.mem_toList, Document.parentElement, Option.filter_eq_some_iff]
    exact and_iff_left houter
  | nextSibling => rw [reach, Relates, Option.mem_toList, h.previousElement_eq_some]
  | subsequentSibling =>
    rw [reach, Relates, List.mem_filter, h.mem_precedingSiblings, and_iff_left houter]

/-! ## 3. Chains -/

theorem Compound.isElement_of_matches {c : Compound} {t : Document} {id : NodeId}
    (h : c.matches t id = true) :
    t.isElement id = true := by
  rw [Compound.matches] at h
  split at h
  · cases h
  · next he => exact Document.isElement_of_element? he

/-- Nodes from `m 0` outward that meet the compounds of the chain and stand to each other as
it says. -/
def Follows (t : Document) (chain : List (Combinator × Compound)) (m : Nat → NodeId) : Prop :=
  ∀ (i : Nat) (k : Combinator) (c : Compound), chain[i]? = some (k, c) →
    k.Relates t (m i) (m (i + 1)) ∧ c.matches t (m (i + 1)) = true

theorem follows_cons {t : Document} {k : Combinator} {c : Compound}
    {chain : List (Combinator × Compound)} {m : Nat → NodeId} :
    Follows t ((k, c) :: chain) m ↔
      (k.Relates t (m 0) (m 1) ∧ c.matches t (m 1) = true) ∧
      Follows t chain fun i => m (i + 1) := by
  constructor
  · exact fun h => ⟨h 0 k c rfl, fun i k c hi => h (i + 1) k c hi⟩
  · rintro ⟨hfirst, hrest⟩ i k' c' hi
    cases i with
    | zero =>
      cases hi
      exact hfirst
    | succ i => exact hrest i k' c' hi

/-- **Trying one node after another misses nothing.** -/
theorem chainMatches_iff {t : Document} (h : t.WellFormed) {chain : List (Combinator × Compound)}
    {id : NodeId} :
    chainMatches t chain id = true ↔ ∃ m : Nat → NodeId, m 0 = id ∧ Follows t chain m := by
  induction chain generalizing id with
  | nil => exact iff_of_true rfl ⟨fun _ => id, rfl, fun i k c hi => by cases hi⟩
  | cons link chain ih =>
    obtain ⟨k, c⟩ := link
    rw [chainMatches, List.any_eq_true]
    constructor
    · -- The node that was tried comes first, and the rest of the chain goes on from it.
      rintro ⟨other, hreach, hmatches⟩
      rw [Bool.and_eq_true] at hmatches
      obtain ⟨m, hm, hfollows⟩ := ih.1 hmatches.2
      have hrelates := (k.mem_reach h (Compound.isElement_of_matches hmatches.1)).1 hreach
      refine ⟨fun i => if i = 0 then id else m (i - 1), rfl, follows_cons.2 ⟨⟨?_, ?_⟩, hfollows⟩⟩
      · show k.Relates t id (m 0)
        rwa [hm]
      · show c.matches t (m 0) = true
        rw [hm]
        exact hmatches.1
    · rintro ⟨m, rfl, hfollows⟩
      obtain ⟨⟨hrelates, hc⟩, hrest⟩ := follows_cons.1 hfollows
      refine ⟨m 1, (k.mem_reach h (Compound.isElement_of_matches hc)).2 hrelates, ?_⟩
      rw [hc, ih.2 ⟨fun i => m (i + 1), rfl, hrest⟩]
      rfl

/-! ## 4. Complex selectors -/

/-- **A complex selector fits a node exactly if its compounds can be given nodes**, from this one
outward: elements that meet them, each an ancestor, the parent, the last element in front or any
element in front of the one before it, as the combinator between the two says. -/
theorem Complex.matches_iff {t : Document} (h : t.WellFormed) (s : Complex) (id : NodeId) :
    s.matches t id = true ↔
      ∃ m : Nat → NodeId, m 0 = id ∧ (∀ i ≤ s.chain.length, t.isElement (m i) = true) ∧
        s.subject.matches t (m 0) = true ∧ Follows t s.chain m := by
  rw [Complex.matches, Bool.and_eq_true, chainMatches_iff h]
  constructor
  · rintro ⟨hsubject, m, rfl, hfollows⟩
    refine ⟨m, rfl, fun i hi => ?_, hsubject, hfollows⟩
    -- Whatever meets a compound is an element.
    cases i with
    | zero => exact Compound.isElement_of_matches hsubject
    | succ i =>
      exact Compound.isElement_of_matches (hfollows i _ _ (List.getElem?_eq_getElem hi)).2
  · rintro ⟨m, rfl, -, hsubject, hfollows⟩
    exact ⟨hsubject, m, rfl, hfollows⟩

/-- The nearest `b` above the `s` is no child of the `u`, but the one farther out is. -/
theorem Complex.matches_iff_farther :
    let t := Markup.parse "<u><b><i><b><s></s></b></i></b></u>"
    let s : Complex := ⟨[.type "s"], [(.descendant, [.type "b"]), (.child, [.type "u"])]⟩
    t.WellFormed ∧ s.matches t 7 = true ∧ (s.matches t 7 = true ↔
      ∃ m : Nat → NodeId, m 0 = 7 ∧ (∀ i ≤ s.chain.length, t.isElement (m i) = true) ∧
        s.subject.matches t (m 0) = true ∧ Follows t s.chain m) := by
  intro t s
  have hwell : t.WellFormed := (Markup.sound_parse (by decide)).wellFormed
  have hmatches : s.matches t 7 = true := by decide +kernel
  exact ⟨hwell, hmatches, Complex.matches_iff hwell s 7⟩

end Selector

end UniqueSelector
