import UniqueSelector.Document.Traversal
import Mathlib.Data.List.Basic
import Mathlib.Data.List.Nodup
import Mathlib.Logic.Relation

/-!
# Well-formed — documents whose links agree

Parent links and lists of children say the same, siblings know their neighbours, and every way up
ends. A new node that is appended below an old one keeps all of this.
-/

namespace UniqueSelector

/-! ## 1. Texts without U+0000 -/

theorem eq_null_of_toLower {c : Char} (h : c.toLower = '\x00') : c = '\x00' := by
  unfold Char.toLower at h
  split at h
  · next hupper =>
    -- A capital letter moves up by 32, far from zero.
    have hlow : 65 ≤ c.val.toNat := UInt32.le_iff_toNat_le.1 hupper.1
    have hhigh : c.val.toNat ≤ 90 := UInt32.le_iff_toNat_le.1 hupper.2
    have hval : (c.val.toNat + 32) % 2 ^ 32 = 0 := congrArg (fun d : Char => d.val.toNat) h
    omega
  · exact h

/-- Neither name nor value has U+0000 in it. -/
def Attribute.NullFree (a : Attribute) : Prop := '\x00' ∉ a.name.toList ∧ '\x00' ∉ a.value.toList

instance (a : Attribute) : Decidable a.NullFree := inferInstanceAs (Decidable (_ ∧ _))

/-- No text of the element has U+0000 in it. -/
def Element.NullFree (e : Element) : Prop :=
  '\x00' ∉ e.tag.toList ∧ ∀ a ∈ e.attrs.entries, a.NullFree

/-- No text of an element has U+0000 in it. -/
def Document.NullFree (t : Document) : Prop :=
  ∀ {id : NodeId} {e : Element}, t.element? id = some e → e.NullFree

/-! ## 2. Links -/

/-- The element that a kind of node is. -/
def NodeKind.element? : NodeKind → Option Element
  | .element e => some e
  | _ => none

namespace Document

theorem element?_eq (t : Document) (id : NodeId) :
    t.element? id = ((t.get? id).map Node.kind).bind NodeKind.element? := by
  rw [element?]
  cases t.get? id with
  | none => rfl
  | some n =>
    show (match n.kind with | .element e => some e | _ => none) = n.kind.element?
    cases n.kind <;> rfl

/-- The links of a document agree with each other, and names of attributes are distinct. -/
structure WellFormed (t : Document) : Prop where
  document : (t.get? root).map Node.kind = some .document
  top : t.parent root = none
  mem_children : ∀ {p c : NodeId}, c ∈ t.children p ↔ t.parent c = some p
  nodup : ∀ p : NodeId, (t.children p).Nodup
  neighbours : ∀ {p c : NodeId} {left right : List NodeId}, t.children p = left ++ c :: right →
    t.prev c = left.getLast? ∧ t.next c = right.head?
  alone : ∀ {c : NodeId}, t.parent c = none → t.prev c = none ∧ t.next c = none
  climbs : WellFounded fun p c : NodeId => t.parent c = some p
  names : ∀ {id : NodeId} {e : Element}, t.element? id = some e →
    (e.attrs.entries.map Attribute.name).Nodup

/-! ## 3. One node changes -/

/-- The node at a place is replaced. -/
def alter (t : Document) (id : NodeId) (f : Node → Node) : Document := ⟨t.nodes.modify id f⟩

theorem get?_alter (t : Document) (id : NodeId) (f : Node → Node) (j : NodeId) :
    (t.alter id f).get? j = if id = j then (t.get? j).map f else t.get? j :=
  Array.getElem?_modify

theorem size_alter (t : Document) (id : NodeId) (f : Node → Node) : (t.alter id f).size = t.size :=
  Array.size_modify

theorem map_get?_alter {α : Type} {g : Node → α} {f : Node → Node} (h : ∀ n, g (f n) = g n)
    (t : Document) (id j : NodeId) : ((t.alter id f).get? j).map g = (t.get? j).map g := by
  rw [get?_alter]
  split
  · rw [Option.map_map]
    exact congrArg (fun g => (t.get? j).map g) (funext h)
  · rfl

theorem kind_alter {f : Node → Node} (h : ∀ n, (f n).kind = n.kind) (t : Document) (id j : NodeId) :
    ((t.alter id f).get? j).map Node.kind = (t.get? j).map Node.kind :=
  map_get?_alter h t id j

theorem bind_get?_alter {α : Type} {g : Node → Option α} {f : Node → Node} (h : ∀ n, g (f n) = g n)
    (t : Document) (id j : NodeId) : ((t.alter id f).get? j).bind g = (t.get? j).bind g := by
  have hmap := map_get?_alter h t id j
  cases hget : (t.alter id f).get? j <;> cases hold : t.get? j <;> simp_all

theorem parent_alter {f : Node → Node} (h : ∀ n, (f n).parent = n.parent) (t : Document)
    (id j : NodeId) :
    (t.alter id f).parent j = t.parent j :=
  bind_get?_alter h t id j

theorem next_alter {f : Node → Node} (h : ∀ n, (f n).next = n.next) (t : Document) (id j : NodeId) :
    (t.alter id f).next j = t.next j :=
  bind_get?_alter h t id j

theorem prev_alter {f : Node → Node} (h : ∀ n, (f n).prev = n.prev) (t : Document) (id j : NodeId) :
    (t.alter id f).prev j = t.prev j :=
  bind_get?_alter h t id j

theorem children_alter {f : Node → Node} (h : ∀ n, (f n).children = n.children) (t : Document)
    (id j : NodeId) : (t.alter id f).children j = t.children j := by
  rw [children, children, map_get?_alter (g := fun n => n.children.toList) fun n => by rw [h]]

theorem get?_eq_some_of_lt {t : Document} {id : NodeId} (h : id < t.size) :
    ∃ n, t.get? id = some n :=
  ⟨t.nodes[id], Array.getElem?_eq_getElem h⟩

theorem get?_eq_none {t : Document} {id : NodeId} (h : t.size ≤ id) : t.get? id = none :=
  Array.getElem?_eq_none h

theorem isElement_of_element? {t : Document} {id : NodeId} {e : Element}
    (h : t.element? id = some e) :
    t.isElement id = true := by
  rw [isElement, h]
  rfl

theorem lt_size_of_isElement {t : Document} {id : NodeId} (h : t.isElement id = true) :
    id < t.size := by
  by_contra hid
  rw [isElement, element?_eq, get?_eq_none (Nat.le_of_not_lt hid)] at h
  cases h

theorem lt_size_of_parent {t : Document} {c p : NodeId} (h : t.parent c = some p) : c < t.size := by
  by_contra hc
  rw [parent, get?_eq_none (Nat.le_of_not_lt hc)] at h
  cases h

/-! ## 4. A node is appended -/

end Document

namespace Node

def adopt (c : NodeId) (n : Node) : Node := { n with children := n.children.push c }

def below (p : NodeId) (n : Node) : Node := { n with parent := some p }

def before (c : NodeId) (n : Node) : Node := { n with next := some c }

def behind (s : NodeId) (n : Node) : Node := { n with prev := some s }

end Node

namespace Document

/-- The child is made known to its parent and to the neighbour on its left. -/
theorem append_eq (t : Document) (p c : NodeId) :
    t.append p c =
      match (t.children p).getLast? with
      | none => (t.alter p (.adopt c)).alter c (.below p)
      | some s =>
        (((t.alter p (.adopt c)).alter c (.below p)).alter s (.before c)).alter c (.behind s) := by
  have hlast : (t.nodes[p]?).bind (fun n => n.children.back?) = (t.children p).getLast? := by
    rw [children, get?]
    cases t.nodes[p]? with
    | none => rfl
    | some n => simp [Array.back?_eq_getElem?, List.getLast?_eq_getElem?]
  rw [append, hlast]
  cases (t.children p).getLast? <;> rfl

theorem size_append (t : Document) (p c : NodeId) : (t.append p c).size = t.size := by
  rw [append_eq]
  cases (t.children p).getLast? with
  | none => rw [size_alter, size_alter]
  | some s => rw [size_alter, size_alter, size_alter, size_alter]

theorem kind_append (t : Document) (p c j : NodeId) :
    ((t.append p c).get? j).map Node.kind = (t.get? j).map Node.kind := by
  have hlinked : ((((t.alter p (.adopt c)).alter c (.below p))).get? j).map Node.kind =
      (t.get? j).map Node.kind := by
    rw [kind_alter (f := Node.below p) fun _ => rfl, kind_alter (f := Node.adopt c) fun _ => rfl]
  rw [append_eq]
  cases (t.children p).getLast? with
  | none => exact hlinked
  | some s =>
    rw [kind_alter (f := Node.behind s) fun _ => rfl, kind_alter (f := Node.before c) fun _ => rfl,
      hlinked]

theorem parent_append {t : Document} {c : NodeId} (hc : c < t.size) (p j : NodeId) :
    (t.append p c).parent j = if j = c then some p else t.parent j := by
  have hlinked : ((t.alter p (.adopt c)).alter c (.below p)).parent j =
      if j = c then some p else t.parent j := by
    rw [← parent_alter (f := Node.adopt c) (fun _ => rfl) t p j, parent, get?_alter]
    by_cases hj : j = c
    · subst hj
      obtain ⟨n, hn⟩ := get?_eq_some_of_lt ((size_alter t p (.adopt j)).symm ▸ hc)
      rw [if_pos rfl, if_pos rfl, hn]
      rfl
    · rw [if_neg (Ne.symm hj), if_neg hj, parent]
  rw [append_eq]
  cases (t.children p).getLast? with
  | none => exact hlinked
  | some s =>
    rw [parent_alter (f := Node.behind s) fun _ => rfl,
      parent_alter (f := Node.before c) fun _ => rfl, hlinked]

theorem children_append {t : Document} {p : NodeId} (hp : p < t.size) (c j : NodeId) :
    (t.append p c).children j = if j = p then t.children p ++ [c] else t.children j := by
  have hlinked : ((t.alter p (.adopt c)).alter c (.below p)).children j =
      if j = p then t.children p ++ [c] else t.children j := by
    rw [children_alter (f := Node.below p) fun _ => rfl, children, get?_alter]
    by_cases hj : j = p
    · subst hj
      obtain ⟨n, hn⟩ := get?_eq_some_of_lt hp
      rw [if_pos rfl, if_pos rfl, children, hn]
      exact Array.toList_push
    · rw [if_neg (Ne.symm hj), if_neg hj, children]
  rw [append_eq]
  cases (t.children p).getLast? with
  | none => exact hlinked
  | some s =>
    rw [children_alter (f := Node.behind s) fun _ => rfl,
      children_alter (f := Node.before c) fun _ => rfl, hlinked]

theorem next_append {t : Document} {p : NodeId} (hlast : ∀ s ∈ (t.children p).getLast?, s < t.size)
    (c j : NodeId) :
    (t.append p c).next j = if (t.children p).getLast? = some j then some c else t.next j := by
  have hlinked : ((t.alter p (.adopt c)).alter c (.below p)).next j = t.next j := by
    rw [next_alter (f := Node.below p) fun _ => rfl, next_alter (f := Node.adopt c) fun _ => rfl]
  rw [append_eq]
  cases hs : (t.children p).getLast? with
  | none => exact hlinked
  | some s =>
    have hsize : s < ((t.alter p (.adopt c)).alter c (.below p)).size := by
      rw [size_alter, size_alter]
      exact hlast s hs
    show (((_ : Document).alter s (.before c)).alter c (.behind s)).next j = _
    rw [next_alter (f := Node.behind s) fun _ => rfl, next, get?_alter]
    by_cases hj : s = j
    · subst hj
      obtain ⟨n, hn⟩ := get?_eq_some_of_lt hsize
      rw [if_pos rfl, if_pos rfl, hn]
      rfl
    · rw [if_neg hj, if_neg (by simpa using hj)]
      exact hlinked

theorem prev_append {t : Document} {c : NodeId} (hc : c < t.size) (p j : NodeId) :
    (t.append p c).prev j = if j = c then (t.children p).getLast?.or (t.prev c) else t.prev j := by
  have hlinked : ((t.alter p (.adopt c)).alter c (.below p)).prev j = t.prev j := by
    rw [prev_alter (f := Node.below p) fun _ => rfl, prev_alter (f := Node.adopt c) fun _ => rfl]
  rw [append_eq]
  cases hs : (t.children p).getLast? with
  | none =>
    refine hlinked.trans ?_
    split
    · next h => rw [h, Option.none_or]
    · rfl
  | some s =>
    have hnext : (((t.alter p (.adopt c)).alter c (.below p)).alter s (.before c)).prev
        j = t.prev j := by
      rw [prev_alter (f := Node.before c) fun _ => rfl, hlinked]
    show ((_ : Document).alter c (.behind s)).prev j = _
    rw [← hnext, prev, get?_alter]
    by_cases hj : j = c
    · subst hj
      have hsize : j < (((t.alter p (.adopt j)).alter j (.below p)).alter s (.before j)).size := by
        rw [size_alter, size_alter, size_alter]
        exact hc
      obtain ⟨n, hn⟩ := get?_eq_some_of_lt hsize
      rw [if_pos rfl, if_pos rfl, hn]
      rfl
    · rw [if_neg (Ne.symm hj), if_neg hj, prev]

theorem element?_append (t : Document) (p c j : NodeId) :
    (t.append p c).element? j = t.element? j := by
  rw [element?_eq, element?_eq, kind_append]

/-! ## 5. What keeps a document well-formed -/

/-- The child is free, and no way up from the parent leads to it. -/
structure Attachable (t : Document) (p c : NodeId) : Prop where
  parent_lt : p < t.size
  child_lt : c < t.size
  ne_root : c ≠ root
  free : t.parent c = none
  apart : ¬Relation.ReflTransGen (fun x q => t.parent x = some q) p c

namespace WellFormed

variable {t : Document} (h : t.WellFormed)
include h

theorem lt_size_of_mem_children {p c : NodeId} (hc : c ∈ t.children p) : c < t.size :=
  lt_size_of_parent (h.mem_children.1 hc)

theorem last_lt_size {p s : NodeId} (hs : s ∈ (t.children p).getLast?) : s < t.size :=
  h.lt_size_of_mem_children (List.mem_of_getLast? hs)

/-- The siblings of a child that is appended: the old last one is its neighbour. -/
theorem neighbours_append {p c : NodeId} (ha : t.Attachable p c) {x : NodeId}
    {left right : List NodeId} (hsplit : t.children p ++ [c] = left ++ x :: right) :
    (t.append p c).prev x = left.getLast? ∧ (t.append p c).next x = right.head? := by
  have hc : c ∉ t.children p := fun hc => by
    have hparent := h.mem_children.1 hc
    rw [ha.free] at hparent
    cases hparent
  rw [prev_append ha.child_lt, next_append fun s => h.last_lt_size]
  rcases List.eq_nil_or_concat right with rfl | ⟨right, y, rfl⟩
  · -- The new child: its neighbour on the left is the old last one, and nothing is on its right.
    obtain ⟨rfl, hx⟩ := List.append_inj' hsplit rfl
    cases hx
    have hlast : (t.children p).getLast? ≠ some c := fun hlast => hc (List.mem_of_getLast? hlast)
    rw [if_pos rfl, if_neg hlast, (h.alone ha.free).1, (h.alone ha.free).2, Option.or_none]
    exact ⟨rfl, rfl⟩
  · -- An old child: it has the old neighbours, except for the old last one.
    rw [List.concat_eq_append, ← List.cons_append, ← List.append_assoc] at hsplit
    obtain ⟨hold, hy⟩ := List.append_inj' hsplit rfl
    cases hy
    have hx : x ≠ c := fun hx => hc (hold ▸ hx ▸ List.mem_append_right _ (.head _))
    rw [if_neg hx, (h.neighbours hold).1, (h.neighbours hold).2]
    refine ⟨rfl, ?_⟩
    have hnodup := h.nodup p
    rw [hold] at hnodup ⊢
    cases right with
    | nil =>
      rw [if_pos List.getLast?_concat]
      rfl
    | cons z right =>
      -- With a sibling behind it a child is not the last one, since none is listed twice.
      have hlast : (left ++ x :: z :: right).getLast? ≠ some x := by
        rw [List.getLast?_append, List.getLast?_cons_cons]
        intro hlast
        have hmem : x ∈ z :: right := by
          obtain ⟨y, hy⟩ :=
            Option.isSome_iff_exists.1 (List.getLast?_isSome.2 (List.cons_ne_nil z right))
          rw [hy, Option.some_or, Option.some.injEq] at hlast
          exact hlast ▸ List.mem_of_getLast? hy
        exact (List.nodup_cons.1 (List.nodup_append.1 hnodup).2.1).1 hmem
      rw [if_neg hlast]
      rfl

/-- Every way up still ends: the one from the child goes on from the parent, and never
comes back. -/
theorem climbs_append {p c : NodeId} (ha : t.Attachable p c) :
    WellFounded fun q x : NodeId => (t.append p c).parent x = some q := by
  have hparent := fun x => parent_append ha.child_lt p x
  -- The ways up from the parent are the old ones: they never come by the child.
  have hbelow : ∀ x, Relation.ReflTransGen (fun x q => t.parent x = some q) p x →
      Acc (fun q x : NodeId => (t.append p c).parent x = some q) x := by
    intro x
    induction x using h.climbs.induction with
    | _ x ih =>
      intro hx
      refine .intro x fun q hq => ?_
      have hne : x ≠ c := fun hc => ha.apart (hc ▸ hx)
      rw [hparent, if_neg hne] at hq
      exact ih q hq (hx.tail hq)
  have hchild : Acc (fun q x : NodeId => (t.append p c).parent x = some q) c := by
    refine .intro c fun q hq => ?_
    rw [hparent, if_pos rfl, Option.some.injEq] at hq
    exact hq ▸ hbelow p .refl
  -- Any other way up is an old one until it comes by the child, if it ever does.
  constructor
  intro x
  induction x using h.climbs.induction with
  | _ x ih =>
    by_cases hx : x = c
    · exact hx ▸ hchild
    · refine .intro x fun q hq => ?_
      rw [hparent, if_neg hx] at hq
      exact ih q hq

/-- **Appending a free node keeps the links in agreement.** -/
theorem append {p c : NodeId} (ha : t.Attachable p c) : (t.append p c).WellFormed where
  document := (kind_append t p c root).trans h.document
  top := by rw [parent_append ha.child_lt, if_neg (Ne.symm ha.ne_root), h.top]
  mem_children := by
    intro q x
    rw [children_append ha.parent_lt, parent_append ha.child_lt]
    by_cases hx : x = c
    · -- The child was nobody's before.
      subst hx
      rw [if_pos rfl]
      by_cases hq : q = p
      · rw [if_pos hq, hq]
        simp
      · rw [if_neg hq, h.mem_children, ha.free]
        simp [Ne.symm hq]
    · rw [if_neg hx]
      split
      · next hq => rw [List.mem_append, List.mem_singleton, or_iff_left hx, h.mem_children, hq]
      · exact h.mem_children
  nodup := by
    intro q
    rw [children_append ha.parent_lt]
    split
    · have hc : c ∉ t.children p := fun hc => by
        have hparent := h.mem_children.1 hc
        rw [ha.free] at hparent
        cases hparent
      exact List.nodup_append.2 ⟨h.nodup p, List.nodup_singleton c,
        fun x hx y hy hxy => hc (List.mem_singleton.1 hy ▸ hxy ▸ hx)⟩
    · exact h.nodup q
  neighbours := by
    intro q x left right hsplit
    rw [children_append ha.parent_lt] at hsplit
    split at hsplit
    · exact h.neighbours_append ha hsplit
    · next hq =>
      have hx : t.parent x = some q := h.mem_children.1 (hsplit ▸ List.mem_append_right _ (.head _))
      have hne : x ≠ c := fun hc => by
        rw [hc, ha.free] at hx
        cases hx
      have hlast : (t.children p).getLast? ≠ some x := fun hlast => by
        have hp := h.mem_children.1 (List.mem_of_getLast? hlast)
        rw [hx] at hp
        exact hq (Option.some.inj hp)
      rw [prev_append ha.child_lt, if_neg hne, next_append fun s => h.last_lt_size, if_neg hlast]
      exact h.neighbours hsplit
  alone := by
    intro x hx
    rw [parent_append ha.child_lt] at hx
    split at hx
    · cases hx
    · next hne =>
      have hlast : (t.children p).getLast? ≠ some x := fun hlast => by
        have hp := h.mem_children.1 (List.mem_of_getLast? hlast)
        rw [hx] at hp
        cases hp
      rw [prev_append ha.child_lt, if_neg hne, next_append fun s => h.last_lt_size, if_neg hlast]
      exact h.alone hx
  climbs := h.climbs_append ha
  names := fun he => h.names ((element?_append t p c _).symm.trans he)

end WellFormed

/-! ## 6. The document node alone -/

theorem get?_empty (j : NodeId) :
    empty.get? j = if j = root then some { kind := .document } else none := by
  rw [get?, empty]
  by_cases hj : j = root
  · rw [if_pos hj, hj]
    rfl
  · rw [if_neg hj]
    exact Array.getElem?_eq_none (Nat.pos_of_ne_zero hj)

section empty

variable (j : NodeId)

theorem parent_empty : empty.parent j = none := by
  rw [parent, get?_empty]
  split <;> rfl

theorem next_empty : empty.next j = none := by
  rw [next, get?_empty]
  split <;> rfl

theorem prev_empty : empty.prev j = none := by
  rw [prev, get?_empty]
  split <;> rfl

theorem children_empty : empty.children j = [] := by
  rw [children, get?_empty]
  split <;> rfl

theorem element?_empty : empty.element? j = none := by
  rw [element?_eq, get?_empty]
  split <;> rfl

end empty

theorem wellFormed_empty : empty.WellFormed where
  document := rfl
  top := parent_empty root
  mem_children := by
    intro p c
    rw [children_empty, parent_empty]
    simp
  nodup p := by
    rw [children_empty]
    exact List.nodup_nil
  neighbours := by
    intro p c left right hsplit
    rw [children_empty] at hsplit
    simp at hsplit
  alone _ := ⟨prev_empty _, next_empty _⟩
  climbs := ⟨fun c => .intro c fun p hp => by
    rw [parent_empty] at hp
    cases hp⟩
  names := by
    intro id e he
    rw [element?_empty] at he
    cases he

/-! ## 7. A node is added -/

theorem get?_alloc (t : Document) (kind : NodeKind) (j : NodeId) :
    (t.alloc kind).1.get? j = if j = t.size then some { kind } else t.get? j := by
  rw [alloc, get?, get?, Array.getElem?_push]
  rfl

theorem size_alloc (t : Document) (kind : NodeKind) : (t.alloc kind).1.size = t.size + 1 :=
  Array.size_push _

section alloc

variable (t : Document) (kind : NodeKind) (j : NodeId)

theorem parent_alloc : (t.alloc kind).1.parent j = t.parent j := by
  rw [parent, parent, get?_alloc]
  split
  · next hj => rw [hj, get?_eq_none (Nat.le_refl _)]; rfl
  · rfl

theorem next_alloc : (t.alloc kind).1.next j = t.next j := by
  rw [next, next, get?_alloc]
  split
  · next hj => rw [hj, get?_eq_none (Nat.le_refl _)]; rfl
  · rfl

theorem prev_alloc : (t.alloc kind).1.prev j = t.prev j := by
  rw [prev, prev, get?_alloc]
  split
  · next hj => rw [hj, get?_eq_none (Nat.le_refl _)]; rfl
  · rfl

theorem children_alloc : (t.alloc kind).1.children j = t.children j := by
  rw [children, children, get?_alloc]
  split
  · next hj => rw [hj, get?_eq_none (Nat.le_refl _)]; rfl
  · rfl

theorem element?_alloc :
    (t.alloc kind).1.element? j = if j = t.size then kind.element? else t.element? j := by
  rw [element?_eq, element?_eq, get?_alloc]
  split <;> rfl

end alloc

theorem root_lt_size {t : Document} (h : t.WellFormed) : root < t.size := by
  by_contra hsize
  have hdocument := h.document
  rw [get?_eq_none (Nat.le_of_not_lt hsize)] at hdocument
  cases hdocument

theorem WellFormed.alloc {t : Document} (h : t.WellFormed) {kind : NodeKind}
    (hkind : ∀ e, kind.element? = some e → (e.attrs.entries.map Attribute.name).Nodup) :
    (t.alloc kind).1.WellFormed where
  document := by
    rw [get?_alloc, if_neg (Nat.ne_of_lt (root_lt_size h))]
    exact h.document
  top := (parent_alloc t kind root).trans h.top
  mem_children := by
    intro p c
    rw [children_alloc, parent_alloc]
    exact h.mem_children
  nodup p := by
    rw [children_alloc]
    exact h.nodup p
  neighbours := by
    intro p c left right hsplit
    rw [children_alloc] at hsplit
    rw [prev_alloc, next_alloc]
    exact h.neighbours hsplit
  alone := by
    intro c hc
    rw [parent_alloc] at hc
    rw [prev_alloc, next_alloc]
    exact h.alone hc
  climbs := by
    simp only [parent_alloc]
    exact h.climbs
  names := by
    intro id e he
    rw [element?_alloc] at he
    split at he
    · exact hkind e he
    · exact h.names he

theorem attachable_alloc {t : Document} (h : t.WellFormed) {p : NodeId} (hp : p < t.size)
    (kind : NodeKind) :
    (t.alloc kind).1.Attachable p t.size where
  parent_lt := by
    rw [size_alloc]
    exact Nat.lt_succ_of_lt hp
  child_lt := by
    rw [size_alloc]
    exact Nat.lt_succ_self _
  ne_root := Nat.ne_of_gt (root_lt_size h)
  free := by rw [parent_alloc, parent, get?_eq_none (Nat.le_refl _)]; rfl
  apart := by
    intro hclimb
    -- A way up that ends at the new node would end with a step to it, but it has no children.
    simp only [parent_alloc] at hclimb
    rcases Relation.ReflTransGen.cases_tail hclimb with heq | ⟨x, -, hx⟩
    · exact absurd heq (Nat.ne_of_gt hp)
    · have hmem := h.mem_children.2 hx
      rw [children, get?_eq_none (Nat.le_refl _)] at hmem
      cases hmem

/-- **Adding a node keeps the links in agreement.** -/
theorem WellFormed.add {t : Document} (h : t.WellFormed) {p : NodeId} (hp : p < t.size)
    {kind : NodeKind}
    (hkind : ∀ e, kind.element? = some e → (e.attrs.entries.map Attribute.name).Nodup) :
    (t.add p kind).1.WellFormed :=
  (h.alloc hkind).append (attachable_alloc h hp kind)

theorem size_add (t : Document) (p : NodeId) (kind : NodeKind) :
    (t.add p kind).1.size = t.size + 1 := by
  rw [add, ← size_alloc t kind]
  exact size_append _ p t.size

theorem parent_add (t : Document) (p : NodeId) (kind : NodeKind) (j : NodeId) :
    (t.add p kind).1.parent j = if j = t.size then some p else t.parent j := by
  have hsize : t.size < (t.alloc kind).1.size := by
    rw [size_alloc]
    exact Nat.lt_succ_self _
  rw [add, ← parent_alloc t kind j]
  exact parent_append hsize p j

theorem element?_add (t : Document) (p : NodeId) (kind : NodeKind) (j : NodeId) :
    (t.add p kind).1.element? j = if j = t.size then kind.element? else t.element? j := by
  rw [add, ← element?_alloc]
  exact element?_append _ p t.size j

end Document

end UniqueSelector
