import UniqueSelector.Proofs.Meaning
import UniqueSelector.Proofs.Traversals
import Mathlib.Order.Bounds.Basic

/-!
# Siblings — structural pseudo-classes agree on where an element stands

Each pseudo-class looks in its own way: along the links to the left or to the right, or at the
list of children. In a document whose links agree they all see one row, the elements below the
parent, and tell of one number, the place of the element in this row. Texts and comments in
between make no difference.
-/

namespace UniqueSelector

open Selector

/-! ## 1. One row of elements -/

namespace Document

/-- The elements below the parent of `n`, parted at `n`. -/
structure Flanked (t : Document) (n parent : NodeId) (before after : List NodeId) : Prop where
  attached : t.parent n = some parent
  row : t.elementChildren parent = before ++ n :: after
  leftward : (t.precedingSiblings n).filter t.isElement = before.reverse
  rightward : (t.followingSiblings n).filter t.isElement = after

theorem WellFormed.exists_flanked {t : Document} (h : t.WellFormed) {n parent : NodeId}
    (hn : t.isElement n = true) (hparent : t.parent n = some parent) :
    ∃ before after, t.Flanked n parent before after := by
  obtain ⟨left, right, hsplit⟩ := List.append_of_mem (h.mem_children.2 hparent)
  refine ⟨left.filter t.isElement, right.filter t.isElement, hparent, ?_, ?_, ?_⟩
  · rw [elementChildren, hsplit, List.filter_append, List.filter_cons_of_pos hn]
  · rw [h.precedingSiblings_of_split hsplit, List.filter_reverse]
  · rw [h.followingSiblings_of_split hsplit]

/-- The places, counted from one, of the elements below `parent` that have the tag of `e`, up to the
case of letters. -/
def placesOfType (t : Document) (parent : NodeId) (e : Element) : Set Nat :=
  {i | ∃ j c other, i = j + 1 ∧ (t.elementChildren parent)[j]? = some c ∧
    t.element? c = some other ∧ sameLetters other.tag e.tag = true}

theorem sameType_iff {t : Document} {e : Element} {c : NodeId} :
    sameType t e c = true ↔ ∃ other, t.element? c = some other ∧
      sameLetters other.tag e.tag = true := by
  rw [sameType]
  cases t.element? c with
  | none => simp
  | some other => simp

theorem mem_placesOfType {t : Document} {parent : NodeId} {e : Element} {i : Nat} :
    i ∈ t.placesOfType parent e ↔ ∃ j c, i = j + 1 ∧ (t.elementChildren parent)[j]? = some c ∧
      sameType t e c = true := by
  simp only [placesOfType, Set.mem_ofPred_eq, sameType_iff, exists_and_left]

theorem isElement_of_sameType {t : Document} {e : Element} {c : NodeId}
    (h : sameType t e c = true) :
    t.isElement c = true := by
  obtain ⟨other, hother, -⟩ := sameType_iff.1 h
  exact isElement_of_element? hother

/-- Only elements have a type, so the others need not be looked at. -/
theorem any_sameType (t : Document) (e : Element) (ids : List NodeId) :
    ids.any (sameType t e) = (ids.filter t.isElement).any (sameType t e) := by
  rw [List.any_filter]
  congr 1
  funext c
  cases hc : sameType t e c with
  | false => rw [Bool.and_false]
  | true => rw [isElement_of_sameType hc]; rfl

namespace Flanked

variable {t : Document} {n parent : NodeId} {before after : List NodeId}
  (h : t.Flanked n parent before after)
include h

theorem elementIndex : t.elementIndex n = some (before.length + 1) := by
  rw [Document.elementIndex, h.attached, Option.map_some, List.countP_eq_length_filter, h.leftward,
    List.length_reverse]

theorem length_row : (t.elementChildren parent).length = before.length + 1 + after.length := by
  rw [h.row, List.length_append, List.length_cons]
  omega

theorem getElem?_row : (t.elementChildren parent)[before.length]? = some n := by
  rw [h.row, List.getElem?_append_right (Nat.le_refl _), Nat.sub_self]
  rfl

theorem place_mem {e : Element} (he : t.element? n = some e) :
    before.length + 1 ∈ t.placesOfType parent e := by
  have hself : sameLetters e.tag e.tag = true := beq_self_eq_true _
  exact ⟨before.length, n, e, rfl, h.getElem?_row, he, hself⟩

/-- The place is the first one of its type if no element in front has the same type. -/
theorem isLeast_iff {e : Element} (he : t.element? n = some e) :
    IsLeast (t.placesOfType parent e) (before.length + 1) ↔
      ∀ c ∈ before, sameType t e c = false := by
  constructor
  · rintro ⟨-, hleast⟩ c hc
    rw [Bool.eq_false_iff]
    intro htype
    obtain ⟨j, hj, hget⟩ := List.getElem_of_mem hc
    have hrow : (t.elementChildren parent)[j]? = some c := by
      rw [h.row, List.getElem?_append_left hj, List.getElem?_eq_getElem hj, hget]
    have hle := hleast (mem_placesOfType.2 ⟨j, c, rfl, hrow, htype⟩)
    omega
  · intro hbefore
    refine ⟨h.place_mem he, fun i hi => ?_⟩
    obtain ⟨j, c, rfl, hrow, htype⟩ := mem_placesOfType.1 hi
    by_contra hlt
    have hj : j < before.length := by omega
    rw [h.row, List.getElem?_append_left hj] at hrow
    rw [hbefore c (List.mem_of_getElem? hrow)] at htype
    cases htype

/-- The place is the last one of its type if no element behind has the same type. -/
theorem isGreatest_iff {e : Element} (he : t.element? n = some e) :
    IsGreatest (t.placesOfType parent e) (before.length + 1) ↔
      ∀ c ∈ after, sameType t e c = false := by
  have hrow : ∀ j, (t.elementChildren parent)[before.length + 1 + j]? = after[j]? := by
    intro j
    rw [h.row, List.append_cons, List.getElem?_append_right (by simp), List.length_append,
      List.length_singleton, Nat.add_sub_cancel_left]
  constructor
  · rintro ⟨-, hgreatest⟩ c hc
    rw [Bool.eq_false_iff]
    intro htype
    obtain ⟨j, hget⟩ := List.mem_iff_getElem?.1 hc
    have hle :=
      hgreatest (mem_placesOfType.2 ⟨before.length + 1 + j, c, rfl, (hrow j).trans hget, htype⟩)
    omega
  · intro hafter
    refine ⟨h.place_mem he, fun i hi => ?_⟩
    obtain ⟨j, c, rfl, hget, htype⟩ := mem_placesOfType.1 hi
    by_contra hlt
    obtain ⟨d, rfl⟩ := Nat.exists_eq_add_of_lt (Nat.lt_of_succ_lt_succ (Nat.lt_of_not_le hlt))
    rw [Nat.add_right_comm, hrow] at hget
    rw [hafter c (List.mem_of_getElem? hget)] at htype
    cases htype

end Flanked

end Document

/-! ## 2. Pseudo-classes -/

namespace Selector

/-- Only the first place is counted. -/
theorem Nth.matches_first {k : Nat} : Nth.matches ⟨0, 1⟩ k = true ↔ k = 1 := by
  rw [Nth.matches]
  split
  · rw [if_pos rfl, beq_iff_eq, Nat.cast_eq_one]
  · next hlarge =>
    refine iff_of_false Bool.false_ne_true ?_
    rintro rfl
    exact hlarge (by decide)

/-- The pseudo-class as a selector of its own. -/
def Pseudo.alone (p : Pseudo) : Selectors := [⟨[.pseudo p], []⟩]

theorem Pseudo.matches_alone {t : Document} {n parent : NodeId} {e : Element}
    (he : t.element? n = some e) (hparent : t.parent n = some parent) (p : Pseudo) :
    p.alone.matches t n = p.holdsBelow t n e parent := by
  have hcompound : Compound.matches [.pseudo p] t n = p.holdsBelow t n e parent := by
    simp only [Compound.matches, he, List.all_cons, List.all_nil, Bool.and_true, Simple.matchesAt,
      Pseudo.matches, hparent]
  rw [Selectors.matches, alone, List.any_cons, List.any_nil, Bool.or_false, Complex.matches,
    hcompound, chainMatches, Bool.and_true]

section flanked

variable {t : Document} {n parent : NodeId} {before after : List NodeId} {e : Element}
  (h : t.Flanked n parent before after)
include h

theorem holdsBelow_nthChild (nth : Nth) :
    (Pseudo.nthChild nth).holdsBelow t n e parent = nth.matches (before.length + 1) := by
  rw [Pseudo.holdsBelow, h.elementIndex]
  rfl

theorem holdsBelow_nthLastChild (nth : Nth) :
    (Pseudo.nthLastChild nth).holdsBelow t n e parent = nth.matches (after.length + 1) := by
  rw [Pseudo.holdsBelow, List.countP_eq_length_filter, h.rightward]

theorem holdsBelow_firstChild : Pseudo.firstChild.holdsBelow t n e parent = true ↔ before = [] := by
  rw [Pseudo.holdsBelow, Document.previousElement, ← List.head?_filter, h.leftward,
    Option.isNone_iff_eq_none, List.head?_eq_none_iff, List.reverse_eq_nil_iff]

theorem holdsBelow_lastChild : Pseudo.lastChild.holdsBelow t n e parent = true ↔ after = [] := by
  rw [Pseudo.holdsBelow, Bool.not_eq_true', ← h.rightward, List.filter_eq_nil_iff,
    List.any_eq_false]

theorem holdsBelow_onlyChild :
    Pseudo.onlyChild.holdsBelow t n e parent = true ↔ before = [] ∧ after = [] := by
  rw [Pseudo.holdsBelow, beq_iff_eq, h.length_row, ← List.length_eq_zero_iff,
    ← List.length_eq_zero_iff]
  omega

theorem holdsBelow_firstOfType (he : t.element? n = some e) :
    Pseudo.firstOfType.holdsBelow t n e parent = true ↔
      IsLeast (t.placesOfType parent e) (before.length + 1) := by
  rw [Pseudo.holdsBelow, Document.any_sameType, h.leftward, List.any_reverse, Bool.not_eq_true',
    List.any_eq_false, h.isLeast_iff he]
  simp only [Bool.not_eq_true]

theorem holdsBelow_lastOfType (he : t.element? n = some e) :
    Pseudo.lastOfType.holdsBelow t n e parent = true ↔
      IsGreatest (t.placesOfType parent e) (before.length + 1) := by
  rw [Pseudo.holdsBelow, Document.any_sameType, h.rightward, Bool.not_eq_true', List.any_eq_false,
    h.isGreatest_iff he]
  simp only [Bool.not_eq_true]

end flanked

theorem holdsBelow_root {t : Document} {n parent : NodeId} {e : Element}
    (he : t.element? n = some e) : Pseudo.root.holdsBelow t n e parent = true ↔
      ∃ left right, t.children Document.root = left ++ n :: right ∧
        ∀ c ∈ left, t.isElement c = false := by
  have hn := Document.isElement_of_element? he
  rw [Pseudo.holdsBelow, beq_iff_eq, Document.documentElement, Document.elementChildren,
    List.head?_filter, List.find?_eq_some_iff_append]
  simp only [hn, true_and, Bool.not_eq_true']

end Selector

/-! ## 3. Agreement -/

namespace Document

/-- What the pseudo-classes say of the element `e` at `n`, which is the `k`-th of the elements
below `parent`. -/
structure Placed (t : Document) (n : NodeId) (e : Element) (parent : NodeId) (k : Nat) : Prop where
  index : t.elementIndex n = some k
  pos : 1 ≤ k
  stands : (t.elementChildren parent)[k - 1]? = some n
  nthChild : ∀ nth : Nth, (Pseudo.nthChild nth).alone.matches t n = true ↔ nth.matches k = true
  nthLastChild : ∀ nth : Nth, (Pseudo.nthLastChild nth).alone.matches t n = true ↔
    nth.matches ((t.elementChildren parent).length + 1 - k) = true
  firstChild : Pseudo.firstChild.alone.matches t n = true ↔
    (Pseudo.nthChild ⟨0, 1⟩).alone.matches t n = true
  lastChild : Pseudo.lastChild.alone.matches t n = true ↔
    (Pseudo.nthLastChild ⟨0, 1⟩).alone.matches t n = true
  onlyChild : Pseudo.onlyChild.alone.matches t n = true ↔
    Pseudo.firstChild.alone.matches t n = true ∧ Pseudo.lastChild.alone.matches t n = true
  firstOfType : Pseudo.firstOfType.alone.matches t n = true ↔ IsLeast (t.placesOfType parent e) k
  lastOfType : Pseudo.lastOfType.alone.matches t n = true ↔ IsGreatest (t.placesOfType parent e) k
  /-- No element stands in front of it below the document node. -/
  root : Pseudo.root.alone.matches t n = true ↔
    ∃ left right, t.children root = left ++ n :: right ∧ ∀ c ∈ left, t.isElement c = false

/-- **The structural pseudo-classes agree**: for each element that is attached, one place among the
elements below its parent decides them all. -/
theorem WellFormed.exists_placed {t : Document} (h : t.WellFormed) {n parent : NodeId} {e : Element}
    (he : t.element? n = some e) (hparent : t.parent n = some parent) :
    ∃ k, t.Placed n e parent k := by
  obtain ⟨before, after, hflanked⟩ := h.exists_flanked (isElement_of_element? he) hparent
  have hlast : (t.elementChildren parent).length + 1 - (before.length + 1) = after.length + 1 := by
    rw [hflanked.length_row]
    omega
  refine ⟨before.length + 1, ?_⟩
  have hmatches := fun p => Pseudo.matches_alone he hparent p
  exact {
    index := hflanked.elementIndex
    pos := Nat.succ_pos _
    stands := hflanked.getElem?_row
    nthChild := fun nth => by rw [hmatches, holdsBelow_nthChild hflanked]
    nthLastChild := fun nth => by rw [hmatches, holdsBelow_nthLastChild hflanked, hlast]
    firstChild := by
      rw [hmatches, hmatches, holdsBelow_firstChild hflanked, holdsBelow_nthChild hflanked,
        Nth.matches_first, Nat.succ_inj, List.length_eq_zero_iff]
    lastChild := by
      rw [hmatches, hmatches, holdsBelow_lastChild hflanked, holdsBelow_nthLastChild hflanked,
        Nth.matches_first, Nat.succ_inj, List.length_eq_zero_iff]
    onlyChild := by
      rw [hmatches, hmatches, hmatches, holdsBelow_onlyChild hflanked,
        holdsBelow_firstChild hflanked, holdsBelow_lastChild hflanked]
    firstOfType := by rw [hmatches, holdsBelow_firstOfType hflanked he]
    lastOfType := by rw [hmatches, holdsBelow_lastOfType hflanked he]
    root := by rw [hmatches, holdsBelow_root he] }

/-- The second of three elements, with texts and a comment between them, is the last `b`. -/
theorem WellFormed.exists_placed_bold :
    let t := Markup.parse "<div>x<b></b>y<b></b><!--z--><i></i></div>"
    t.WellFormed ∧ t.element? 7 = some { tag := "b" } ∧ t.parent 7 = some 3 ∧
      ∃ k, t.Placed 7 { tag := "b" } 3 k := by
  intro t
  have hwell : t.WellFormed := (Markup.sound_parse (by decide)).wellFormed
  have he : t.element? 7 = some { tag := "b" } := by decide +kernel
  have hparent : t.parent 7 = some 3 := by decide +kernel
  exact ⟨hwell, he, hparent, WellFormed.exists_placed hwell he hparent⟩

end Document

end UniqueSelector
