import UniqueSelector.Document.Iteration
import UniqueSelector.Proofs.Edits
import UniqueSelector.Proofs.TreeOrder
import Mathlib.Data.List.Induction
import Mathlib.Data.Set.Function
import Mathlib.Order.Interval.Set.Defs

/-!
# Traversals — what the iterators hand out

An iterator over a tree stops by itself, and what it has handed out until then can be told from the
tree: upward all that is above, sideways the rest of the list of siblings, downward each node below,
once, before what is below it. The walks that count their steps list the same. This holds for every
document that is put together step by step, whatever its nodes hold.
-/

namespace UniqueSelector

/-! ## 1. Iterators that stop -/

/-- Calls of `next`, one after another until there is nothing left, hand out the list. -/
inductive Yields {State Item : Type} (next : State → Option (Item × State)) :
    State → List Item → Prop where
  | done {s : State} (hnext : next s = none) : Yields next s []
  | item {s s' : State} {x : Item} {xs : List Item} (hnext : next s = some (x, s'))
      (hrest : Yields next s' xs) : Yields next s (x :: xs)

section linkNext

variable {link : NodeId → Option NodeId}

theorem yields_none : Yields (linkNext link) none [] := .done rfl

theorem yields_some {id : NodeId} {ids : List NodeId} (h : Yields (linkNext link) (link id) ids) :
    Yields (linkNext link) (some id) (id :: ids) := .item rfl h

/-- A walk of so many steps is complete if no more than these lead anywhere. -/
theorem yields_follow {steps : Nat} {id : NodeId} (h : ascend link (steps + 1) id = none) :
    Yields (linkNext link) (link id) (follow link steps id) := by
  induction steps generalizing id with
  | zero =>
    rw [ascend_succ, ascend, Option.bind_some] at h
    rw [follow, h]
    exact yields_none
  | succ steps ih =>
    rw [follow]
    rw [ascend] at h
    cases hlink : link id with
    | none => exact yields_none
    | some other =>
      rw [hlink, Option.bind_some] at h
      exact yields_some (ih h)

/-- A walk with enough steps lists what the iterator hands out. -/
theorem follow_eq {steps : Nat} {id : NodeId} {ids : List NodeId}
    (h : Yields (linkNext link) (link id) ids) (hsteps : ids.length ≤ steps) :
    follow link steps id = ids := by
  induction ids generalizing steps id with
  | nil =>
    cases h with
    | done hnext => exact follow_of_none (Option.map_eq_none_iff.1 hnext) steps
  | cons other ids ih =>
    cases steps with
    | zero => cases hsteps
    | succ steps =>
      cases h with
      | item hnext hrest =>
        obtain ⟨x, hx, heq⟩ := Option.map_eq_some_iff.1 hnext
        cases heq
        rw [follow, hx]
        exact congrArg (List.cons other) (ih hrest (Nat.le_of_succ_le_succ hsteps))

end linkNext

namespace Document

/-! ## 2. The iterators over a tree -/

/-- The stack with the nodes that are still to come, the first one on top. -/
theorem descendantNext_reverse (t : Document) (id : NodeId) (coming : List NodeId) :
    t.descendantNext (id :: coming).reverse.toArray =
      some (id, (t.children id ++ coming).reverse.toArray) := by
  simp [descendantNext, stackBelow]

namespace WellFormed

variable {t : Document} (h : t.WellFormed)
include h

/-- From each node on the stack the iterator goes down before it comes to the next one. -/
theorem yields_coming (coming : List NodeId) :
    Yields t.descendantNext coming.reverse.toArray
      (coming.flatMap fun id => id :: t.descendants id) := by
  -- Each call hands out one node, so the list that is left gets shorter, although the stack
  -- may grow.
  generalize hlength : (coming.flatMap fun id => id :: t.descendants id).length = n
  induction n generalizing coming with
  | zero =>
    cases coming with
    | nil => exact .done rfl
    | cons id coming => cases hlength
  | succ n ih =>
    cases coming with
    | nil => cases hlength
    | cons id coming =>
      have hsplit : ((t.children id ++ coming).flatMap fun id => id :: t.descendants id) =
          t.descendants id ++ coming.flatMap fun id => id :: t.descendants id := by
        rw [List.flatMap_append, ← h.descendants_eq]
      rw [List.flatMap_cons, List.cons_append, ← hsplit] at hlength ⊢
      exact .item (t.descendantNext_reverse id coming) (ih _ (Nat.succ.inj hlength))

theorem yields_descendants (id : NodeId) :
    Yields t.descendantNext (t.stackBelow id) (t.descendants id) := by
  rw [h.descendants_eq]
  exact h.yields_coming (t.children id)

theorem yields_ancestors (id : NodeId) :
    Yields (linkNext t.parent) (t.parent id) (t.ancestors id) := by
  apply yields_follow
  rw [Option.eq_none_iff_forall_not_mem]
  intro x hx
  exact Nat.lt_irrefl _ (h.ascend_lt_size hx)

/-- The neighbours on the left are those in front of it in the list of children, the
nearest first. -/
theorem yields_preceding {p c : NodeId} {left right : List NodeId}
    (hsplit : t.children p = left ++ c :: right) :
    Yields (linkNext t.prev) (t.prev c) left.reverse := by
  induction left using List.reverseRecOn generalizing c right with
  | nil =>
    rw [(h.neighbours hsplit).1]
    exact yields_none
  | append_singleton left y ih =>
    rw [(h.neighbours hsplit).1, List.getLast?_concat, List.reverse_concat]
    rw [List.append_assoc, List.singleton_append] at hsplit
    exact yields_some (ih hsplit)

/-- The neighbours on the right are those behind it in the list of children. -/
theorem yields_following {p c : NodeId} {left right : List NodeId}
    (hsplit : t.children p = left ++ c :: right) :
    Yields (linkNext t.next) (t.next c) right := by
  induction right generalizing c left with
  | nil =>
    rw [(h.neighbours hsplit).2]
    exact yields_none
  | cons y right ih =>
    rw [(h.neighbours hsplit).2, List.head?_cons]
    rw [List.append_cons] at hsplit
    exact yields_some (ih hsplit)

theorem followingSiblings_of_split {p c : NodeId} {left right : List NodeId}
    (hsplit : t.children p = left ++ c :: right) : t.followingSiblings c = right := by
  have hlength : right.length ≤ t.size := by
    have hle := h.length_children_le p
    rw [hsplit, List.length_append, List.length_cons] at hle
    omega
  exact follow_eq (h.yields_following hsplit) hlength

theorem followingSiblings_of_alone {c : NodeId} (hparent : t.parent c = none) :
    t.followingSiblings c = [] :=
  follow_of_none (h.alone hparent).2 t.size

theorem yields_precedingSiblings (id : NodeId) :
    Yields (linkNext t.prev) (t.prev id) (t.precedingSiblings id) := by
  cases hparent : t.parent id with
  | none =>
    rw [(h.alone hparent).1, h.precedingSiblings_of_alone hparent]
    exact yields_none
  | some p =>
    obtain ⟨left, right, hsplit⟩ := List.append_of_mem (h.mem_children.2 hparent)
    rw [h.precedingSiblings_of_split hsplit]
    exact h.yields_preceding hsplit

theorem yields_followingSiblings (id : NodeId) :
    Yields (linkNext t.next) (t.next id) (t.followingSiblings id) := by
  cases hparent : t.parent id with
  | none =>
    rw [(h.alone hparent).2, h.followingSiblings_of_alone hparent]
    exact yields_none
  | some p =>
    obtain ⟨left, right, hsplit⟩ := List.append_of_mem (h.mem_children.2 hparent)
    rw [h.followingSiblings_of_split hsplit]
    exact h.yields_following hsplit

end WellFormed

/-! ## 3. Counting elements -/

/-- If each sibling counts the elements in front of it, the elements are numbered from one in
their order. -/
theorem map_elementIndex {t : Document} {p : NodeId}
    (hindex : ∀ {left : List NodeId} {c : NodeId} {right : List NodeId}, t.children p =
      left ++ c :: right → t.elementIndex c = some (left.countP t.isElement + 1))
    {left right : List NodeId} (hsplit : t.children p = left ++ right) :
    (left.filter t.isElement).map t.elementIndex =
      (List.range' 1 (left.countP t.isElement)).map some := by
  induction left using List.reverseRecOn generalizing right with
  | nil => rfl
  | append_singleton left c ih =>
    rw [List.append_assoc, List.singleton_append] at hsplit
    rw [List.filter_append, List.map_append, ih hsplit, List.countP_append]
    by_cases hc : t.isElement c = true
    · rw [List.filter_cons_of_pos hc, List.filter_nil, List.map_singleton, hindex hsplit,
        List.countP_cons_of_pos hc, List.countP_nil, Nat.zero_add, List.range'_1_concat,
        List.map_append, List.map_singleton, Nat.add_comm 1]
    · rw [List.filter_cons_of_neg hc, List.countP_cons_of_neg hc]
      exact List.append_nil _

/-- Indices that run from one to the number of elements name each element once. -/
theorem bijOn_elementIndex {t : Document} {ids : List NodeId}
    (hmap : ids.map t.elementIndex = (List.range' 1 ids.length).map some) :
    Set.BijOn t.elementIndex {c | c ∈ ids} (some '' Set.Icc 1 ids.length) := by
  have hnodup : (ids.map t.elementIndex).Nodup := by
    rw [hmap]
    exact (List.nodup_range' ..).map (Option.some_injective Nat)
  have hinj : Set.InjOn t.elementIndex {c | c ∈ ids} :=
    fun x hx y hy => List.inj_on_of_nodup_map hnodup hx hy
  have himage : t.elementIndex '' {c | c ∈ ids} = some '' Set.Icc 1 ids.length := by
    ext i
    calc i ∈ t.elementIndex '' {c | c ∈ ids}
      _ ↔ i ∈ ids.map t.elementIndex := List.mem_map.symm
      _ ↔ i ∈ (List.range' 1 ids.length).map some := by rw [hmap]
      _ ↔ i ∈ some '' Set.Icc 1 ids.length := by
        rw [List.mem_map, Set.mem_image]
        simp only [List.mem_range'_1, Set.mem_Icc, Nat.lt_one_add_iff]
  exact himage ▸ hinj.bijOn_image

/-! ## 4. Whatever the nodes hold -/

namespace SameLinks

variable {t t' : Document} (h : SameLinks t t')
include h

theorem ancestors : t.ancestors = t'.ancestors := by
  funext id
  rw [Document.ancestors, Document.ancestors, h.parent, h.size]

theorem precedingSiblings : t.precedingSiblings = t'.precedingSiblings := by
  funext id
  rw [Document.precedingSiblings, Document.precedingSiblings, h.prev, h.size]

theorem followingSiblings : t.followingSiblings = t'.followingSiblings := by
  funext id
  rw [Document.followingSiblings, Document.followingSiblings, h.next, h.size]

theorem below (depth : Nat) (id : NodeId) : t.below depth id = t'.below depth id := by
  induction depth generalizing id with
  | zero => rfl
  | succ depth ih =>
    rw [Document.below, Document.below, h.children]
    simp only [ih]

theorem descendants : t.descendants = t'.descendants := by
  funext id
  rw [Document.descendants, Document.descendants, h.size, h.below]

theorem stackBelow : t.stackBelow = t'.stackBelow := by
  funext id
  rw [Document.stackBelow, Document.stackBelow, h.children]

theorem descendantNext : t.descendantNext = t'.descendantNext := by
  funext stack
  rw [Document.descendantNext, Document.descendantNext, h.stackBelow]

/-- The elements are the document's own, even if the other one has none in these places. -/
theorem elementIndex_of_split (hwell : t'.WellFormed) {p c : NodeId} {left right : List NodeId}
    (hsplit : t.children p = left ++ c :: right) :
    t.elementIndex c = some (left.countP t.isElement + 1) := by
  rw [h.children] at hsplit
  have hparent : t.parent c = some p := by
    rw [h.parent, ← hwell.mem_children, hsplit]
    exact List.mem_append_right _ (.head _)
  rw [elementIndex, hparent, Option.map_some, h.precedingSiblings,
    hwell.precedingSiblings_of_split hsplit, List.countP_reverse]

end SameLinks

/-- What the iterators hand out agrees with the parents and the lists of children. -/
structure Traversed (t : Document) : Prop where
  /-- The walk downward ends. -/
  downward : ∀ a, Yields t.descendantNext (t.stackBelow a) (t.descendants a)
  /-- Depth first, each node before what is below it. -/
  preorder : ∀ a, t.descendants a = (t.children a).flatMap fun c => c :: t.descendants c
  once : ∀ a, (t.descendants a).Nodup
  below : ∀ a d, d ∈ t.descendants a ↔ t.isDescendantOf d a = true
  upward : ∀ n, Yields (linkNext t.parent) (t.parent n) (t.ancestors n)
  leftward : ∀ n, Yields (linkNext t.prev) (t.prev n) (t.precedingSiblings n)
  rightward : ∀ n, Yields (linkNext t.next) (t.next n) (t.followingSiblings n)
  /-- An attached node stands at one place in its parent's list, which is parted there. -/
  parted : ∀ {p n : NodeId}, t.parent n = some p → ∃ left right, t.children p = left ++ n :: right ∧
    n ∉ left ∧ n ∉ right ∧ t.precedingSiblings n = left.reverse ∧ t.followingSiblings n = right ∧
    t.elementIndex n = some (left.countP t.isElement + 1)
  alone : ∀ {n : NodeId}, t.parent n = none →
    t.precedingSiblings n = [] ∧ t.followingSiblings n = [] ∧ t.elementIndex n = none
  numbered : ∀ p, Set.BijOn t.elementIndex {c | c ∈ t.elementChildren p}
    (some '' Set.Icc 1 (t.elementChildren p).length)

theorem SameLinks.traversed {t t' : Document} (h : SameLinks t t') (hwell : t'.WellFormed) :
    t.Traversed where
  downward a := by
    rw [h.descendantNext, h.stackBelow, h.descendants]
    exact hwell.yields_descendants a
  preorder a := by
    rw [h.descendants, h.children]
    exact hwell.descendants_eq a
  once a := by
    rw [h.descendants]
    exact hwell.nodup_descendants a
  below a d := by
    rw [h.descendants, h.isDescendantOf]
    exact mem_descendants hwell
  upward n := by
    rw [h.parent, h.ancestors]
    exact hwell.yields_ancestors n
  leftward n := by
    rw [h.prev, h.precedingSiblings]
    exact hwell.yields_precedingSiblings n
  rightward n := by
    rw [h.next, h.followingSiblings]
    exact hwell.yields_followingSiblings n
  parted := by
    intro p n hparent
    rw [h.parent, ← hwell.mem_children] at hparent
    obtain ⟨left, right, hsplit⟩ := List.append_of_mem hparent
    have hnodup := hwell.nodup p
    rw [hsplit, List.nodup_middle, List.nodup_cons, List.mem_append, not_or] at hnodup
    have hsplit' : t.children p = left ++ n :: right := by rwa [h.children]
    refine ⟨left, right, hsplit', hnodup.1.1, hnodup.1.2, ?_, ?_,
      h.elementIndex_of_split hwell hsplit'⟩
    · rw [h.precedingSiblings, hwell.precedingSiblings_of_split hsplit]
    · rw [h.followingSiblings, hwell.followingSiblings_of_split hsplit]
  alone := by
    intro n hparent
    rw [h.precedingSiblings, h.followingSiblings, elementIndex, hparent]
    rw [h.parent] at hparent
    exact ⟨hwell.precedingSiblings_of_alone hparent, hwell.followingSiblings_of_alone hparent, rfl⟩
  numbered p := by
    apply bijOn_elementIndex
    have hmap :=
      map_elementIndex (h.elementIndex_of_split hwell) (List.append_nil (t.children p)).symm
    rwa [List.countP_eq_length_filter] at hmap

/-- **Whatever is allocated and attached, and in whatever order**, the iterators agree with
the tree. -/
theorem traversed_build {edits : List Edit} (h : empty.PermitsAll edits) :
    (empty.build edits).Traversed := by
  obtain ⟨t', hwell, hsame⟩ := SameLinks.exists_build ⟨rfl, rfl, rfl, rfl, rfl⟩ wellFormed_empty h
  exact hsame.traversed hwell

/-- A branch with a text between its elements, attached when it is complete. -/
theorem traversed_build_branch :
    let edits : List Edit := [.alloc (.element { tag := "p" }), .alloc (.element { tag := "b" }),
      .alloc (.text "a"), .alloc (.element { tag := "i" }), .append 1 2, .append 1 3, .append 1 4,
      .alloc (.comment "c"), .append 2 5, .append root 1]
    empty.PermitsAll edits ∧ (empty.build edits).descendants root = [1, 2, 5, 3, 4] ∧
      (empty.build edits).elementIndex 4 = some 2 ∧ (empty.build edits).Traversed := by
  intro edits
  have hpermits : empty.PermitsAll edits := by decide +kernel
  exact ⟨hpermits, by decide +kernel, by decide +kernel, traversed_build hpermits⟩

end Document

end UniqueSelector
