import UniqueSelector.Proofs.Places

/-!
# Edits — documents that are put together step by step

A node is allocated first and attached later, and whole branches may be attached to each other in
any order. As long as no node is attached twice, nor below itself, the three ways in which a
document keeps its links go on telling the same: the parent of a node, the list of its children, and
its neighbours. What the nodes hold does not matter.
-/

namespace UniqueSelector

/-! ## 1. Edits -/

/-- A change to a document: a new node that is attached to nothing, or a node that becomes the last
child of another. -/
inductive Edit where
  | alloc (kind : NodeKind)
  | append (parent child : NodeId)

namespace Document

def edit (t : Document) : Edit → Document
  | .alloc kind => (t.alloc kind).1
  | .append parent child => t.append parent child

/-- The edits one after another. -/
def build (t : Document) (edits : List Edit) : Document := edits.foldl edit t

/-- What an edit may rely on: both nodes are there, and the child is attached to nothing, is not the
document node, and is neither the parent nor above it. -/
def Permits (t : Document) : Edit → Prop
  | .alloc _ => True
  | .append parent child =>
    parent < t.size ∧ child < t.size ∧ t.parent child = none ∧ child ≠ root ∧ child ≠ parent ∧
      t.isDescendantOf parent child = false

instance (t : Document) (e : Edit) : Decidable (t.Permits e) :=
  match e with
  | .alloc _ => inferInstanceAs (Decidable True)
  | .append _ _ => inferInstanceAs (Decidable (_ ∧ _))

/-- Each edit is permitted when its turn comes. -/
def PermitsAll (t : Document) : List Edit → Prop
  | [] => True
  | e :: edits => t.Permits e ∧ (t.edit e).PermitsAll edits

instance decidablePermitsAll (t : Document) (edits : List Edit) : Decidable (t.PermitsAll edits) :=
  match edits with
  | [] => inferInstanceAs (Decidable True)
  | e :: edits => @instDecidableAnd _ _ _ ((t.edit e).decidablePermitsAll edits)

/-! ## 2. Links that agree -/

/-- Parents, children and neighbours tell the same, and every way up ends. -/
structure Linked (t : Document) : Prop where
  mem_children : ∀ p c, c ∈ t.children p ↔ t.parent c = some p
  once : ∀ p c, c ∈ t.children p → (t.children p).count c = 1 ∧ ∀ q, c ∈ t.children q → q = p
  prev : ∀ p i c, (t.children p)[i]? = some c → t.prev c = if i = 0 then
    none else (t.children p)[i - 1]?
  next : ∀ p i c, (t.children p)[i]? = some c → t.next c = (t.children p)[i + 1]?
  alone : ∀ c, t.parent c = none → t.prev c = none ∧ t.next c = none
  ends : ∀ id, ∃ k, ascend t.parent k id = none

/-- The child at an index stands behind those before the index and in front of those after it. -/
theorem children_split {t : Document} {p c : NodeId} {i : Nat} (hi : (t.children p)[i]? = some c) :
    t.children p = (t.children p).take i ++ c :: (t.children p).drop (i + 1) := by
  obtain ⟨hlt, rfl⟩ := List.getElem?_eq_some_iff.1 hi
  rw [List.getElem_cons_drop, List.take_append_drop]

theorem WellFormed.linked {t : Document} (h : t.WellFormed) : t.Linked where
  mem_children _ _ := h.mem_children
  once p c hc := by
    refine ⟨List.count_eq_one_of_mem (h.nodup p) hc, fun q hq => ?_⟩
    have hparent := h.mem_children.1 hc
    rw [h.mem_children.1 hq] at hparent
    exact Option.some.inj hparent
  prev p i c hi := by
    rw [(h.neighbours (children_split hi)).1]
    obtain ⟨hlt, -⟩ := List.getElem?_eq_some_iff.1 hi
    cases i with
    | zero => rfl
    | succ i =>
      have hbefore : (t.children p)[i]? = some (t.children p)[i] :=
        List.getElem?_eq_getElem (Nat.lt_of_succ_lt hlt)
      rw [List.getLast?_take, Nat.add_sub_cancel, hbefore, Option.some_or]
  next p i c hi := by rw [(h.neighbours (children_split hi)).2, List.head?_drop]
  alone _ := h.alone
  ends id := by
    -- One step more than there are nodes leads nowhere.
    refine ⟨t.size + 1, ?_⟩
    cases hsome : ascend t.parent (t.size + 1) id with
    | none => rfl
    | some x => exact absurd (h.ascend_lt_size hsome) (Nat.lt_irrefl _)

/-! ## 3. What the nodes hold does not matter -/

/-- The two documents differ in what their nodes hold, at most. -/
structure SameLinks (t t' : Document) : Prop where
  size : t.size = t'.size
  parent : t.parent = t'.parent
  children : t.children = t'.children
  prev : t.prev = t'.prev
  next : t.next = t'.next

namespace SameLinks

variable {t t' : Document} (h : SameLinks t t')
include h

theorem linked (hlinked : t'.Linked) : t.Linked := by
  obtain ⟨hmem, honce, hprev, hnext, halone, hends⟩ := hlinked
  rw [← h.parent] at hmem halone hends
  rw [← h.children] at hmem honce hprev hnext
  rw [← h.prev] at hprev halone
  rw [← h.next] at hnext halone
  exact ⟨hmem, honce, hprev, hnext, halone, hends⟩

theorem isDescendantOf (x a : NodeId) : t.isDescendantOf x a = t'.isDescendantOf x a := by
  rw [Document.isDescendantOf, Document.isDescendantOf, ancestors, ancestors, h.parent, h.size]

theorem alloc (kind kind' : NodeKind) : SameLinks (t.alloc kind).1 (t'.alloc kind').1 where
  size := by rw [size_alloc, size_alloc, h.size]
  parent := funext fun j => by rw [parent_alloc, parent_alloc, h.parent]
  children := funext fun j => by rw [children_alloc, children_alloc, h.children]
  prev := funext fun j => by rw [prev_alloc, prev_alloc, h.prev]
  next := funext fun j => by rw [next_alloc, next_alloc, h.next]

theorem append (hwell : t'.WellFormed) {p c : NodeId} (hp : p < t'.size) (hc : c < t'.size) :
    SameLinks (t.append p c) (t'.append p c) := by
  have hlast : ∀ s ∈ (t'.children p).getLast?, s < t'.size := fun s => hwell.last_lt_size
  have hlast' : ∀ s ∈ (t.children p).getLast?, s < t.size := by rwa [h.children, h.size]
  exact {
    size := by rw [size_append, size_append, h.size]
    parent := funext fun j => by rw [parent_append (h.size ▸ hc), parent_append hc, h.parent]
    children :=
      funext fun j => by rw [children_append (h.size ▸ hp), children_append hp, h.children]
    prev := funext fun j => by rw [prev_append (h.size ▸ hc), prev_append hc, h.children, h.prev]
    next := funext fun j => by rw [next_append hlast', next_append hlast, h.children, h.next] }

end SameLinks

theorem WellFormed.attachable {t : Document} (h : t.WellFormed) {p c : NodeId}
    (hpermits : t.Permits (.append p c)) :
    t.Attachable p c := by
  obtain ⟨hp, hc, hfree, hroot, hne, habove⟩ := hpermits
  refine ⟨hp, hc, hroot, hfree, fun hclimb => ?_⟩
  rcases Relation.reflTransGen_iff_eq_or_transGen.1 hclimb with heq | hclimb
  · exact hne heq
  · rw [h.isDescendantOf_iff_above.2 hclimb] at habove
    cases habove

/-- **One edit**: a well-formed document with the same links as before has a well-formed successor
with the same links as afterwards. -/
theorem SameLinks.exists_edit {t t' : Document} (h : SameLinks t t') (hwell : t'.WellFormed)
    {e : Edit} (hpermits : t.Permits e) : ∃ t'', t''.WellFormed ∧ SameLinks (t.edit e) t'' := by
  cases e with
  | alloc kind =>
    -- A text stands in for whatever is allocated, an element with one name twice included.
    have hnext : (t'.alloc (.text "")).1.WellFormed :=
      hwell.alloc fun e (he : none = some e) => by cases he
    exact ⟨_, hnext, h.alloc kind (.text "")⟩
  | append p c =>
    have hpermits' : t'.Permits (.append p c) := by
      rwa [Permits, ← h.size, ← h.parent, ← h.isDescendantOf]
    exact ⟨t'.append p c, hwell.append (hwell.attachable hpermits'),
      h.append hwell hpermits'.1 hpermits'.2.1⟩

theorem SameLinks.exists_build {t t' : Document} (h : SameLinks t t') (hwell : t'.WellFormed)
    {edits : List Edit} (hpermits : t.PermitsAll edits) :
    ∃ t'', t''.WellFormed ∧ SameLinks (t.build edits) t'' := by
  induction edits generalizing t t' with
  | nil => exact ⟨t', hwell, h⟩
  | cons e edits ih =>
    obtain ⟨next, hnext, hsame⟩ := h.exists_edit hwell hpermits.1
    exact ih hsame hnext hpermits.2

/-- **Whatever is allocated and attached, and in whatever order**, the links of the
document agree. -/
theorem linked_build {edits : List Edit} (h : empty.PermitsAll edits) :
    (empty.build edits).Linked := by
  obtain ⟨t', hwell, hsame⟩ := SameLinks.exists_build ⟨rfl, rfl, rfl, rfl, rfl⟩ wellFormed_empty h
  exact hsame.linked hwell.linked

/-- A list that gets its items first, the second one before its own text, and is attached itself in
the end. -/
theorem linked_build_list :
    let edits : List Edit :=
      [.alloc (.element { tag := "ul" }), .alloc (.element { tag := "li" }), .append 1 2,
      .alloc (.element { tag := "li" }), .append 1 3, .alloc (.text "b"), .append 3 4,
      .append root 1]
    empty.PermitsAll edits ∧ (empty.build edits).children 1 = [2, 3] ∧
      (empty.build edits).Linked := by
  intro edits
  have hpermits : empty.PermitsAll edits := by decide +kernel
  exact ⟨hpermits, by decide +kernel, linked_build hpermits⟩

end Document

end UniqueSelector
