import UniqueSelector.Proofs.Ascent

/-!
# Places — where a node stands in its document

No way up comes back to where it began, so a node is reached after one number of steps only and each
walk is long enough to list all that is above. Among the elements below one parent the index tells
which one is meant, and so does the row of indices on the way up from a node that is known.
-/

namespace UniqueSelector

namespace Document

namespace WellFormed

variable {t : Document} (h : t.WellFormed)
include h

/-! ## 1. The way up -/

theorem ascend_ne_self (k : Nat) (x : NodeId) : ascend t.parent (k + 1) x ≠ some x := by
  -- The parent of such a node would come back to itself as well, and so on without an end.
  induction x using h.climbs.induction with
  | _ x ih =>
    intro hx
    have hparent := hx
    rw [ascend] at hparent
    obtain ⟨p, hp, hk⟩ := Option.bind_eq_some_iff.1 hparent
    apply ih p hp
    rw [ascend_succ, hk, Option.bind_some, hp]

theorem ascend_inj {i j : Nat} {x z : NodeId} (hi : ascend t.parent i x = some z)
    (hj : ascend t.parent j x = some z) :
    i = j := by
  have hlt : ∀ {i j : Nat}, ascend t.parent i x = some z → ascend t.parent j x = some z →
      ¬i < j := by
    intro i j hi hj hij
    obtain ⟨d, rfl⟩ := Nat.exists_eq_add_of_lt hij
    rw [Nat.add_assoc, ascend_add, hi, Option.bind_some] at hj
    exact h.ascend_ne_self d z hj
  have hij := hlt hi hj
  have hji := hlt hj hi
  omega

/-- A way up has fewer steps than there are nodes. -/
theorem ascend_lt_size {k : Nat} {x y : NodeId} (hx : ascend t.parent (k + 1) x = some y) :
    k < t.size := by
  have hstep : ∀ i, i ≤ k → ∃ z, ascend t.parent i x = some z ∧ z < t.size := by
    intro i hi
    obtain ⟨d, hd⟩ := Nat.exists_eq_add_of_le hi
    rw [hd, Nat.add_assoc, ascend_add] at hx
    obtain ⟨z, hz, hrest⟩ := Option.bind_eq_some_iff.1 hx
    rw [ascend] at hrest
    obtain ⟨p, hp, -⟩ := Option.bind_eq_some_iff.1 hrest
    exact ⟨z, hz, lt_size_of_parent hp⟩
  -- The nodes on the way are all different, so there are at most as many as in the document.
  have hnodup : ((List.range (k + 1)).map fun i => (ascend t.parent i x).getD root).Nodup := by
    apply List.Nodup.map_on _ List.nodup_range
    intro i hi j hj hij
    obtain ⟨z, hz, -⟩ := hstep i (Nat.le_of_lt_succ (List.mem_range.1 hi))
    obtain ⟨z', hz', -⟩ := hstep j (Nat.le_of_lt_succ (List.mem_range.1 hj))
    rw [hz, hz', Option.getD_some, Option.getD_some] at hij
    subst hij
    exact h.ascend_inj hz hz'
  have hsubset : ((List.range (k + 1)).map fun i => (ascend t.parent i x).getD root) ⊆
      List.range t.size := by
    intro z hz
    obtain ⟨i, hi, rfl⟩ := List.mem_map.1 hz
    obtain ⟨z, hz, hsize⟩ := hstep i (Nat.le_of_lt_succ (List.mem_range.1 hi))
    rw [hz, Option.getD_some, List.mem_range]
    exact hsize
  have hlength := (hnodup.subperm hsubset).length_le
  rw [List.length_map, List.length_range, List.length_range] at hlength
  omega

/-- The ancestors are all nodes that steps upward lead to. -/
theorem isDescendantOf_iff {x a : NodeId} :
    t.isDescendantOf x a = true ↔ ∃ k, ascend t.parent (k + 1) x = some a := by
  rw [isDescendantOf, List.contains_iff_mem, ancestors, mem_follow]
  constructor
  · rintro ⟨k, -, hk⟩
    exact ⟨k, hk⟩
  · rintro ⟨k, hk⟩
    exact ⟨k, h.ascend_lt_size hk, hk⟩

theorem isDescendantOf_iff_above {x a : NodeId} : t.isDescendantOf x a = true ↔ t.Above a x :=
  h.isDescendantOf_iff.trans above_iff_ascend.symm

theorem isDescendantOf_trans {x y z : NodeId} (hxy : t.isDescendantOf x y = true)
    (hyz : t.isDescendantOf y z = true) : t.isDescendantOf x z = true := by
  obtain ⟨m, hm⟩ := h.isDescendantOf_iff.1 hxy
  obtain ⟨n, hn⟩ := h.isDescendantOf_iff.1 hyz
  apply h.isDescendantOf_iff.2
  refine ⟨m + 1 + n, ?_⟩
  rw [Nat.add_assoc (m + 1), ascend_add, hm, Option.bind_some, hn]

theorem isDescendantOf_irrefl (x : NodeId) : t.isDescendantOf x x = false := by
  rw [Bool.eq_false_iff]
  intro hx
  obtain ⟨k, hk⟩ := h.isDescendantOf_iff.1 hx
  exact h.ascend_ne_self k x hk

/-- Of two nodes above one node, either is above the other, or they are one. -/
theorem ascend_comparable {i j : Nat} {x y z : NodeId} (hy : ascend t.parent i x = some y)
    (hz : ascend t.parent j x = some z) :
    y = z ∨ t.isDescendantOf y z = true ∨ t.isDescendantOf z y = true := by
  have hbelow : ∀ {i j : Nat} {y z : NodeId}, i < j → ascend t.parent i x = some y →
      ascend t.parent j x = some z → t.isDescendantOf y z = true := by
    intro i j y z hij hy hz
    obtain ⟨d, rfl⟩ := Nat.exists_eq_add_of_lt hij
    rw [Nat.add_assoc, ascend_add, hy, Option.bind_some] at hz
    exact h.isDescendantOf_iff.2 ⟨d, hz⟩
  rcases Nat.lt_trichotomy i j with hij | rfl | hij
  · exact .inr (.inl (hbelow hij hy hz))
  · exact .inl (Option.some.inj (hy.symm.trans hz))
  · exact .inr (.inr (hbelow hij hz hy))

/-! ## 2. The way down -/

theorem nodup_below (n : Nat) (id : NodeId) : (t.below n id).Nodup := by
  induction n generalizing id with
  | zero => exact List.nodup_nil
  | succ n ih =>
    rw [below, List.nodup_flatMap]
    constructor
    · intro child _
      rw [List.nodup_cons, mem_below h]
      refine ⟨?_, ih child⟩
      rintro ⟨k, -, hk⟩
      exact h.ascend_ne_self k child hk
    · apply (h.nodup id).pairwise_of_forall_ne
      intro a ha b hb hne x hxa hxb
      -- A node below two children would reach their parent by two ways of different length, or they
      -- are one.
      have hreach : ∀ c ∈ t.children id, x ∈ c :: t.below n c →
          ∃ k, ascend t.parent k x = some c ∧ ascend t.parent (k + 1) x = some id := by
        intro c hc hx
        have hparent := h.mem_children.1 hc
        rcases List.mem_cons.1 hx with rfl | hx
        · exact ⟨0, rfl, by rw [ascend, hparent]; rfl⟩
        · obtain ⟨k, -, hk⟩ := (mem_below h).1 hx
          exact ⟨k + 1, hk, by rw [ascend_succ, hk, Option.bind_some, hparent]⟩
      obtain ⟨i, hi, hi'⟩ := hreach a ha hxa
      obtain ⟨j, hj, hj'⟩ := hreach b hb hxb
      have hij := h.ascend_inj hi' hj'
      rw [Nat.succ_inj.1 hij, hj] at hi
      exact hne (Option.some.inj hi.symm)

theorem nodup_descendants (id : NodeId) : (t.descendants id).Nodup := h.nodup_below t.size id

/-! ## 3. Siblings -/

/-- The siblings on the left, the nearest first. -/
theorem precedingSiblings_of_split {p c : NodeId} {left right : List NodeId}
    (hsplit : t.children p = left ++ c :: right) : t.precedingSiblings c = left.reverse := by
  have hlength : left.reverse.length ≤ t.size := by
    have hle := h.length_children_le p
    rw [hsplit, List.length_append] at hle
    rw [List.length_reverse]
    exact Nat.le_trans (Nat.le_add_right _ _) hle
  rw [precedingSiblings, precedingSiblings_eq h _ hsplit, List.take_of_length_le hlength]

theorem precedingSiblings_of_alone {c : NodeId} (hparent : t.parent c = none) :
    t.precedingSiblings c = [] :=
  follow_of_none (h.alone hparent).1 t.size

theorem elementIndex_eq {p c : NodeId} {left right : List NodeId}
    (hsplit : t.children p = left ++ c :: right) :
    t.elementIndex c = some (left.countP t.isElement + 1) := by
  have hmem : c ∈ t.children p := hsplit ▸ List.mem_append_right _ (.head _)
  rw [elementIndex, h.mem_children.1 hmem, Option.map_some, h.precedingSiblings_of_split hsplit,
    List.countP_reverse]

theorem exists_elementIndex {p c : NodeId} (hparent : t.parent c = some p) :
    ∃ i, t.elementIndex c = some i := by
  obtain ⟨left, right, hsplit⟩ := List.append_of_mem (h.mem_children.2 hparent)
  exact ⟨_, h.elementIndex_eq hsplit⟩

/-- An element further on has a larger index. -/
theorem elementIndex_lt {p x y : NodeId} {left middle right : List NodeId}
    (hsplit : t.children p = left ++ x :: (middle ++ y :: right)) (hx : t.isElement x = true) :
    t.elementIndex x ≠ t.elementIndex y := by
  have hfar : t.children p = (left ++ x :: middle) ++ y :: right := by
    rw [List.append_assoc, List.cons_append]
    exact hsplit
  rw [h.elementIndex_eq hsplit, h.elementIndex_eq hfar, List.countP_append,
    List.countP_cons_of_pos hx, ne_eq, Option.some.injEq]
  omega

/-- Elements below one parent are told apart by their indices. -/
theorem eq_of_elementIndex {p x y : NodeId} (hpx : t.parent x = some p) (hpy : t.parent y = some p)
    (hx : t.isElement x = true) (hy : t.isElement y = true)
    (hindex : t.elementIndex x = t.elementIndex y) : x = y := by
  obtain ⟨left, right, hsplit⟩ := List.append_of_mem (h.mem_children.2 hpx)
  have hmem := h.mem_children.2 hpy
  rw [hsplit, List.mem_append, List.mem_cons] at hmem
  rcases hmem with hleft | rfl | hright
  · obtain ⟨first, middle, rfl⟩ := List.append_of_mem hleft
    rw [List.append_assoc, List.cons_append] at hsplit
    exact absurd hindex.symm (h.elementIndex_lt hsplit hy)
  · rfl
  · obtain ⟨middle, last, rfl⟩ := List.append_of_mem hright
    exact absurd hindex (h.elementIndex_lt hsplit hx)

/-- **Two elements are one if their ways up meet after the same number of steps** and have the
same indices. -/
theorem eq_of_ascend {l : Nat} {x y z : NodeId} (hx : t.isElement x = true)
    (hy : t.isElement y = true) (hxz : ascend t.parentElement l x = some z)
    (hyz : ascend t.parentElement l y = some z)
    (hindex : ∀ i < l, ∀ a b, ascend t.parentElement i x = some a →
      ascend t.parentElement i y = some b → t.elementIndex a = t.elementIndex b) : x = y := by
  induction l generalizing x y with
  | zero => exact Option.some.inj (hxz.trans hyz.symm)
  | succ l ih =>
    rw [ascend] at hxz hyz
    obtain ⟨p, hp, hpz⟩ := Option.bind_eq_some_iff.1 hxz
    obtain ⟨r, hr, hrz⟩ := Option.bind_eq_some_iff.1 hyz
    obtain ⟨hparent, hpe⟩ := parent_of_parentElement hp
    obtain ⟨hparent', hre⟩ := parent_of_parentElement hr
    -- The parents are one by induction, and below it the first indices tell.
    have hparents : p = r := by
      apply ih hpe hre hpz hrz
      intro i hi a b ha hb
      apply hindex (i + 1) (Nat.succ_lt_succ hi)
      · rw [ascend, hp]
        exact ha
      · rw [ascend, hr]
        exact hb
    subst hparents
    exact h.eq_of_elementIndex hparent hparent' hx hy (hindex 0 (Nat.succ_pos l) x y rfl rfl)

end WellFormed

end Document

end UniqueSelector
