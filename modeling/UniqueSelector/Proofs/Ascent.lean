import UniqueSelector.Proofs.WellFormed
import Mathlib.Data.List.Perm.Subperm

/-!
# Ascent — walks as repeated steps

What a walk lists after `k` steps is what `k` steps along the link lead to. Below a node lie the
nodes from which some number of steps upward leads to it, and in front of a child lie the children
on its left.
-/

namespace UniqueSelector

/-! ## 1. Steps along a link -/

/-- Where `k` steps along the link lead. -/
def ascend (link : NodeId → Option NodeId) : (k : Nat) → NodeId → Option NodeId
  | 0, id => some id
  | k + 1, id => (link id).bind (ascend link k)

section ascend

variable {link : NodeId → Option NodeId}

theorem ascend_add (m n : Nat) (id : NodeId) :
    ascend link (m + n) id = (ascend link m id).bind (ascend link n) := by
  induction m generalizing id with
  | zero => rw [Nat.zero_add, ascend, Option.bind_some]
  | succ m ih =>
    rw [Nat.succ_add, ascend, ascend, Option.bind_assoc]
    congr 1
    funext x
    exact ih x

theorem ascend_succ (k : Nat) (id : NodeId) :
    ascend link (k + 1) id = (ascend link k id).bind link := by
  rw [ascend_add]
  congr 1
  funext x
  rw [ascend]
  cases link x <;> rfl

theorem ascend_of_le {link' : NodeId → Option NodeId}
    (h : ∀ {a b}, link a = some b → link' a = some b) {k : Nat} {id x : NodeId}
    (hx : ascend link k id = some x) : ascend link' k id = some x := by
  induction k generalizing id with
  | zero => exact hx
  | succ k ih =>
    rw [ascend] at hx
    obtain ⟨a, ha, hx⟩ := Option.bind_eq_some_iff.1 hx
    rw [ascend, h ha]
    exact ih hx

theorem follow_of_none {id : NodeId} (h : link id = none) (n : Nat) : follow link n id = [] := by
  cases n with
  | zero => rfl
  | succ n => rw [follow, h]

theorem getElem?_follow (n k : Nat) (id : NodeId) :
    (follow link n id)[k]? = if k < n then ascend link (k + 1) id else none := by
  induction n generalizing k id with
  | zero => rfl
  | succ n ih =>
    rw [follow]
    cases hlink : link id with
    | none =>
      rw [ascend, hlink]
      simp
    | some a =>
      rw [ascend, hlink, Option.bind_some]
      cases k with
      | zero => simp [ascend]
      | succ k =>
        rw [List.getElem?_cons_succ, ih]
        simp only [Nat.succ_lt_succ_iff]

theorem mem_follow {n : Nat} {id x : NodeId} :
    x ∈ follow link n id ↔ ∃ k, k < n ∧ ascend link (k + 1) id = some x := by
  rw [List.mem_iff_getElem?]
  constructor
  · rintro ⟨k, hk⟩
    rw [getElem?_follow] at hk
    split at hk
    · next h => exact ⟨k, h, hk⟩
    · cases hk
  · rintro ⟨k, hk, hx⟩
    exact ⟨k, by rw [getElem?_follow, if_pos hk, hx]⟩

end ascend

namespace Document

theorem parent_of_parentElement {t : Document} {a b : NodeId} (h : t.parentElement a = some b) :
    t.parent a = some b ∧ t.isElement b = true :=
  Option.filter_eq_some_iff.1 h

/-- Steps from child to parent, one at least, lead from `id` up to `above`. -/
def Above (t : Document) (above id : NodeId) : Prop :=
  Relation.TransGen (fun child parent => t.parent child = some parent) id above

theorem above_iff_ascend {t : Document} {above id : NodeId} :
    t.Above above id ↔ ∃ k, ascend t.parent (k + 1) id = some above := by
  constructor
  · intro h
    induction h with
    | single hparent => exact ⟨0, by rw [ascend, hparent]; rfl⟩
    | tail _ hparent ih =>
      obtain ⟨k, hk⟩ := ih
      exact ⟨k + 1, by rw [ascend_succ, hk, Option.bind_some, hparent]⟩
  · rintro ⟨k, hk⟩
    induction k generalizing id with
    | zero =>
      rw [ascend_succ] at hk
      exact .single hk
    | succ k ih =>
      rw [ascend] at hk
      obtain ⟨parent, hparent, hk⟩ := Option.bind_eq_some_iff.1 hk
      exact .head hparent (ih hk)

/-! ## 2. Downward -/

/-- The nodes below `id` are those from which steps upward lead to it. -/
theorem mem_below {t : Document} (h : t.WellFormed) {n : Nat} {id x : NodeId} :
    x ∈ t.below n id ↔ ∃ k, k < n ∧ ascend t.parent (k + 1) x = some id := by
  induction n generalizing id with
  | zero => simp [below]
  | succ n ih =>
    rw [below, List.mem_flatMap]
    constructor
    · -- Downward: the child itself, or what is found below it, and one step more leads to `id`.
      rintro ⟨child, hchild, hx⟩
      have hparent := h.mem_children.1 hchild
      rcases List.mem_cons.1 hx with rfl | hx
      · exact ⟨0, Nat.succ_pos n, by rw [ascend, hparent]; rfl⟩
      · obtain ⟨k, hk, hx⟩ := ih.1 hx
        exact ⟨k + 1, Nat.succ_lt_succ hk, by rw [ascend_succ, hx, Option.bind_some, hparent]⟩
    · -- Upward: the node that the last but one step leads to is a child of `id`.
      rintro ⟨k, hk, hx⟩
      rw [ascend_succ] at hx
      obtain ⟨child, hchild, hparent⟩ := Option.bind_eq_some_iff.1 hx
      refine ⟨child, h.mem_children.2 hparent, ?_⟩
      cases k with
      | zero =>
        cases hchild
        exact .head _
      | succ k => exact .tail _ (ih.2 ⟨k, Nat.lt_of_succ_lt_succ hk, hchild⟩)

theorem mem_descendants {t : Document} (h : t.WellFormed) {id x : NodeId} :
    x ∈ t.descendants id ↔ t.isDescendantOf x id = true := by
  rw [descendants, mem_below h, isDescendantOf, List.contains_iff_mem, ancestors, mem_follow]

/-! ## 3. Sideways -/

theorem precedingSiblings_eq {t : Document} (h : t.WellFormed) (n : Nat) {p c : NodeId}
    {left right : List NodeId} (hsplit : t.children p = left ++ c :: right) :
    follow t.prev n c = left.reverse.take n := by
  -- The neighbour on the left is the last of the children on the left, and the walk goes on
  -- from it.
  induction n generalizing c left right with
  | zero => rw [follow, List.take_zero]
  | succ n ih =>
    rw [follow, (h.neighbours hsplit).1]
    rcases List.eq_nil_or_concat left with rfl | ⟨left, y, rfl⟩
    · rfl
    · rw [List.concat_eq_append, List.append_assoc, List.singleton_append] at hsplit
      rw [List.concat_eq_append, List.getLast?_concat, List.reverse_append, List.reverse_singleton,
        List.singleton_append, List.take_succ_cons]
      show y :: follow t.prev n y = _
      rw [ih hsplit]

/-- An element is counted among the elements below its parent. -/
theorem elementIndex_le {t : Document} (h : t.WellFormed) {p c : NodeId} {i : Nat}
    (hparent : t.parent c = some p) (helement : t.isElement c = true)
    (hi : t.elementIndex c = some i) : i ≤ (t.elementChildren p).length := by
  obtain ⟨left, right, hsplit⟩ := List.append_of_mem (h.mem_children.2 hparent)
  rw [elementIndex, hparent, Option.map_some, Option.some.injEq, precedingSiblings,
    precedingSiblings_eq h t.size hsplit] at hi
  -- The walk may stop early, but it never counts an element twice.
  have hcount : (left.reverse.take t.size).countP t.isElement ≤ left.countP t.isElement := by
    rw [← List.countP_reverse (l := left)]
    exact (List.take_sublist _ _).countP_le
  rw [elementChildren, ← List.countP_eq_length_filter, hsplit, List.countP_append,
    List.countP_cons_of_pos helement]
  omega

/-- No node has more children than there are nodes. -/
theorem WellFormed.length_children_le {t : Document} (h : t.WellFormed) (p : NodeId) :
    (t.children p).length ≤ t.size := by
  have hsubset : t.children p ⊆ List.range t.size :=
    fun c hc => List.mem_range.2 (h.lt_size_of_mem_children hc)
  have hle := ((h.nodup p).subperm hsubset).length_le
  rwa [List.length_range] at hle

theorem length_elementChildren_le {t : Document} (h : t.WellFormed) (p : NodeId) :
    (t.elementChildren p).length ≤ t.size :=
  Nat.le_trans (List.length_filter_le _ _) (h.length_children_le p)

end Document

end UniqueSelector
