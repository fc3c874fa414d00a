import UniqueSelector.Proofs.Places

/-!
# Tree order — which of two nodes comes first

A node comes before all that is below it, and of two siblings the first, with all that is below it,
comes before the second. No two nodes come before each other, so there is one way only to list given
nodes in this order. The nodes below a node are listed so.
-/

namespace UniqueSelector

/-- In a list without repetitions, of two members one comes first. -/
theorem not_sublist_swap {α : Type} {a b : α} {l : List α} (h : l.Nodup) (hab : [a, b].Sublist l) :
    ¬[b, a].Sublist l := by
  induction l with
  | nil => cases hab
  | cons x l ih =>
    rw [List.nodup_cons] at h
    rw [List.cons_sublist_cons'] at hab ⊢
    rintro (hba | ⟨rfl, ha⟩)
    · rcases hab with hab | ⟨rfl, -⟩
      · exact ih h.2 hab hba
      · exact h.1 (hba.subset (.tail _ (.head _)))
    · rcases hab with hab | ⟨rfl, hb⟩
      · exact h.1 (hab.subset (.tail _ (.head _)))
      · exact h.1 (List.singleton_sublist.1 hb)

namespace Document

/-! ## 1. The order -/

/-- Steps from child to parent, or none, lead from `id` up to `above`. -/
def AtOrAbove (t : Document) (above id : NodeId) : Prop := above = id ∨ t.Above above id

/-- Either `x` is above `y`, or two siblings part, the first at `x` or above it, the second at `y`
or above it. -/
def Precedes (t : Document) (x y : NodeId) : Prop :=
  t.Above x y ∨ ∃ parent first second, [first, second].Sublist (t.children parent) ∧
    t.AtOrAbove first x ∧ t.AtOrAbove second y

theorem atOrAbove_iff_ascend {t : Document} {above id : NodeId} :
    t.AtOrAbove above id ↔ ∃ k, ascend t.parent k id = some above := by
  rw [AtOrAbove, above_iff_ascend]
  constructor
  · rintro (rfl | ⟨k, hk⟩)
    · exact ⟨0, rfl⟩
    · exact ⟨k + 1, hk⟩
  · rintro ⟨k, hk⟩
    cases k with
    | zero => exact .inl (Option.some.inj hk).symm
    | succ k => exact .inr ⟨k, hk⟩

theorem AtOrAbove.trans_above {t : Document} {x y z : NodeId} (hxy : t.AtOrAbove x y)
    (hyz : t.Above y z) :
    t.Above x z := by
  rcases hxy with rfl | hxy
  · exact hyz
  · exact hyz.trans hxy

theorem Above.of_parent {t : Document} {parent child x : NodeId}
    (hparent : t.parent child = some parent) (hx : t.AtOrAbove child x) : t.Above parent x := by
  rcases hx with rfl | hx
  · exact .single hparent
  · exact hx.tail hparent

namespace WellFormed

variable {t : Document} (h : t.WellFormed)
include h

theorem not_above_self (x : NodeId) : ¬t.Above x x := by
  rw [above_iff_ascend]
  rintro ⟨k, hk⟩
  exact h.ascend_ne_self k x hk

/-- One child only leads from the parent down to a node. -/
theorem eq_of_atOrAbove {parent x a b : NodeId} (ha : t.parent a = some parent)
    (hb : t.parent b = some parent) (hax : t.AtOrAbove a x) (hbx : t.AtOrAbove b x) : a = b := by
  obtain ⟨i, hi⟩ := atOrAbove_iff_ascend.1 hax
  obtain ⟨j, hj⟩ := atOrAbove_iff_ascend.1 hbx
  have hij : i + 1 = j + 1 := by
    apply h.ascend_inj (x := x) (z := parent)
    · rw [ascend_succ, hi, Option.bind_some, ha]
    · rw [ascend_succ, hj, Option.bind_some, hb]
  rw [Nat.succ_inj.1 hij, hj] at hi
  exact (Option.some.inj hi).symm

/-- The child that leads from an upper node to `x` is at `p` or above it, if `p` lies between
the two. -/
theorem atOrAbove_between {upper child p x : NodeId} (hparent : t.parent child = some upper)
    (hchild : t.AtOrAbove child x) (hupper : t.Above upper p) (hp : t.AtOrAbove p x) :
    t.AtOrAbove child p := by
  obtain ⟨j, hj⟩ := atOrAbove_iff_ascend.1 hchild
  obtain ⟨m, hm⟩ := above_iff_ascend.1 hupper
  obtain ⟨i, hi⟩ := atOrAbove_iff_ascend.1 hp
  have hsteps : j + 1 = i + (m + 1) := by
    apply h.ascend_inj (x := x) (z := upper)
    · rw [ascend_succ, hj, Option.bind_some, hparent]
    · rw [ascend_add, hi, Option.bind_some, hm]
  rw [Nat.succ_inj.1 (hsteps.trans (Nat.add_assoc i m 1).symm), ascend_add, hi,
    Option.bind_some] at hj
  exact atOrAbove_iff_ascend.2 ⟨m, hj⟩

theorem parent_of_sublist {parent first second : NodeId}
    (hsub : [first, second].Sublist (t.children parent)) :
    t.parent first = some parent ∧ t.parent second = some parent ∧ first ≠ second := by
  have hnodup := (h.nodup parent).sublist hsub
  refine ⟨h.mem_children.1 (hsub.subset (.head _)),
    h.mem_children.1 (hsub.subset (.tail _ (.head _))), ?_⟩
  exact fun heq => (List.nodup_cons.1 hnodup).1 (List.mem_singleton.2 heq)

/-- Siblings that part `x` from `y` below one parent part `y` from `x` below no other one
further down. -/
theorem not_parted {x y p q a b c d : NodeId} (hab : [a, b].Sublist (t.children p))
    (hcd : [c, d].Sublist (t.children q)) (hax : t.AtOrAbove a x) (hby : t.AtOrAbove b y)
    (hcy : t.AtOrAbove c y) (hdx : t.AtOrAbove d x) : ¬t.Above q p := by
  intro hqp
  obtain ⟨hap, hbp, -⟩ := h.parent_of_sublist hab
  obtain ⟨hcq, hdq, hne⟩ := h.parent_of_sublist hcd
  -- Both ways down from `q` go by `p`, so they begin with the same child.
  have hpx : t.AtOrAbove p x := .inr (.of_parent hap hax)
  have hpy : t.AtOrAbove p y := .inr (.of_parent hbp hby)
  exact hne (h.eq_of_atOrAbove hcq hdq (h.atOrAbove_between hcq hcy hqp hpy)
    (h.atOrAbove_between hdq hdx hqp hpx))

/-- A node does not come behind what is below it. -/
theorem not_parted_of_above {x y p a b : NodeId} (hxy : t.Above x y)
    (hab : [a, b].Sublist (t.children p)) (hay : t.AtOrAbove a y) (hbx : t.AtOrAbove b x) :
    False := by
  obtain ⟨hap, hbp, hne⟩ := h.parent_of_sublist hab
  exact hne (h.eq_of_atOrAbove hap hbp hay (.inr (hbx.trans_above hxy)))

/-- **No two nodes come before each other.** -/
theorem precedes_asymm {x y : NodeId} (hxy : t.Precedes x y) : ¬t.Precedes y x := by
  rintro (hyx | ⟨q, c, d, hcd, hcy, hdx⟩)
  · rcases hxy with hxy | ⟨p, a, b, hab, hax, hby⟩
    · exact h.not_above_self x (hyx.trans hxy)
    · exact h.not_parted_of_above hyx hab hax hby
  · rcases hxy with hxy | ⟨p, a, b, hab, hax, hby⟩
    · exact h.not_parted_of_above hxy hcd hcy hdx
    · obtain ⟨hap, hbp, -⟩ := h.parent_of_sublist hab
      obtain ⟨hcq, hdq, -⟩ := h.parent_of_sublist hcd
      -- The two parents are above one node: they are one, or either is above the other.
      obtain ⟨i, hi⟩ := above_iff_ascend.1 (.of_parent hap hax)
      obtain ⟨j, hj⟩ := above_iff_ascend.1 (.of_parent hdq hdx)
      rcases h.ascend_comparable hi hj with rfl | hpq | hqp
      · obtain rfl := h.eq_of_atOrAbove hap hdq hax hdx
        obtain rfl := h.eq_of_atOrAbove hbp hcq hby hcy
        exact not_sublist_swap (h.nodup p) hab hcd
      · exact h.not_parted hab hcd hax hby hcy hdx (h.isDescendantOf_iff_above.1 hpq)
      · exact h.not_parted hcd hab hcy hdx hax hby (h.isDescendantOf_iff_above.1 hqp)

theorem not_precedes_self (x : NodeId) : ¬t.Precedes x x := fun hx => h.precedes_asymm hx hx

/-- A list in tree order has no node twice. -/
theorem nodup_of_pairwise_precedes {ids : List NodeId} (hids : ids.Pairwise t.Precedes) :
    ids.Nodup := by
  refine hids.imp ?_
  rintro x _ hxx rfl
  exact h.not_precedes_self x hxx

/-- **The same nodes in tree order are the same list.** -/
theorem eq_of_pairwise_precedes {ids ids' : List NodeId} (hids : ids.Pairwise t.Precedes)
    (hids' : ids'.Pairwise t.Precedes) (hmem : ∀ x, x ∈ ids ↔ x ∈ ids') : ids = ids' := by
  have hperm : ids.Perm ids' := (List.perm_ext_iff_of_nodup (h.nodup_of_pairwise_precedes hids)
    (h.nodup_of_pairwise_precedes hids')).2 hmem
  exact hperm.eq_of_pairwise (fun x y _ _ hxy hyx => absurd hyx (h.precedes_asymm hxy)) hids hids'

/-! ## 2. The nodes below a node -/

theorem above_of_mem_below {n : Nat} {id x : NodeId} (hx : x ∈ t.below n id) : t.Above id x := by
  obtain ⟨k, -, hk⟩ := (mem_below h).1 hx
  exact above_iff_ascend.2 ⟨k, hk⟩

theorem pairwise_precedes_below (n : Nat) (id : NodeId) : (t.below n id).Pairwise t.Precedes := by
  induction n generalizing id with
  | zero => exact .nil
  | succ n ih =>
    rw [below, List.pairwise_flatMap]
    constructor
    · intro child _
      exact List.pairwise_cons.2 ⟨fun x hx => .inl (h.above_of_mem_below hx), ih child⟩
    · -- Two siblings part what is found at them and below them.
      rw [List.pairwise_iff_forall_sublist]
      intro a b hab x hx y hy
      have hreach : ∀ {c z : NodeId}, z ∈ c :: t.below n c → t.AtOrAbove c z := fun hz =>
        (List.mem_cons.1 hz).imp Eq.symm h.above_of_mem_below
      exact .inr ⟨id, a, b, hab, hreach hx, hreach hy⟩

/-- **The nodes below a node are listed in tree order.** -/
theorem pairwise_precedes_descendants (id : NodeId) : (t.descendants id).Pairwise t.Precedes :=
  h.pairwise_precedes_below t.size id

theorem mem_descendants_iff_above {id x : NodeId} : x ∈ t.descendants id ↔ t.Above id x := by
  rw [mem_descendants h, h.isDescendantOf_iff_above]

/-- What is below a node among what is below an upper one. -/
theorem filter_descendants {upper id : NodeId} (hid : t.Above upper id) :
    (t.descendants upper).filter (t.isDescendantOf · id) = t.descendants id := by
  apply h.eq_of_pairwise_precedes ((h.pairwise_precedes_descendants upper).filter _)
    (h.pairwise_precedes_descendants id)
  intro x
  rw [List.mem_filter, h.mem_descendants_iff_above, h.mem_descendants_iff_above,
    h.isDescendantOf_iff_above]
  exact and_iff_right_of_imp fun hx => hx.trans hid

theorem lt_size_of_mem_descendants {id x : NodeId} (hx : x ∈ t.descendants id) : x < t.size := by
  obtain ⟨k, -, hk⟩ := (mem_below h).1 hx
  rw [ascend] at hk
  obtain ⟨p, hp, -⟩ := Option.bind_eq_some_iff.1 hk
  exact lt_size_of_parent hp

/-- Below a node are its children, each with what is below it. -/
theorem descendants_eq (id : NodeId) :
    t.descendants id = (t.children id).flatMap fun child => child :: t.descendants child := by
  show t.below t.size id = t.below (t.size + 1) id
  apply h.eq_of_pairwise_precedes (h.pairwise_precedes_below _ id) (h.pairwise_precedes_below _ id)
  intro x
  rw [mem_below h, mem_below h]
  constructor
  · rintro ⟨k, hk, hx⟩
    exact ⟨k, Nat.lt_succ_of_lt hk, hx⟩
  · rintro ⟨k, -, hx⟩
    exact ⟨k, h.ascend_lt_size hx, hx⟩

end WellFormed

end Document

end UniqueSelector
