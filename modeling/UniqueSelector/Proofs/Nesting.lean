import UniqueSelector.Proofs.Constructed
import UniqueSelector.Proofs.Landmarks

/-!
# Nesting — what may stand inside of what

A void element is empty, a paragraph holds nothing that would have ended it, and no item of a
group holds another one. A document in the making stays so because each open element could hold
the next one inward: only the innermost one is ever closed by what begins, and what lies below it
was checked before.
-/

namespace UniqueSelector

open Markup

/-! ## 1. Attributes and children -/

/-- Whatever is set, each name occurs once. -/
theorem Attributes.nodup_ofList (pairs : List Attribute) :
    ((ofList pairs).entries.map Attribute.name).Nodup := by
  induction pairs using List.reverseRecOn with
  | nil => exact List.nodup_nil
  | append_singleton pairs a ih =>
    rw [ofList_concat]
    exact nodup_insertInto a.name a.value ih

namespace Document

/-- The tag of the element at a place. -/
def tag? (t : Document) (id : NodeId) : Option String := (t.element? id).map Element.tag

variable {t : Document}

theorem children_eq_nil {id : NodeId} (hid : t.size ≤ id) : t.children id = [] := by
  rw [children, get?_eq_none hid]
  rfl

theorem children_add {p : NodeId} (hp : p < t.size) (kind : NodeKind) (id : NodeId) :
    (t.add p kind).1.children id = if id = p then t.children p ++ [t.size] else t.children id := by
  have hsize : p < (t.alloc kind).1.size := by
    rw [size_alloc]
    exact Nat.lt_succ_of_lt hp
  rw [add, ← children_alloc t kind p, ← children_alloc t kind id]
  exact children_append hsize t.size id

/-- A new element comes last among the elements below its parent. -/
theorem elementChildren_add (h : t.WellFormed) {p : NodeId} (hp : p < t.size) (kind : NodeKind)
    (id : NodeId) :
    (t.add p kind).1.elementChildren id =
      if id = p then t.elementChildren p ++ (kind.element?.map fun _ => t.size).toList
        else t.elementChildren id := by
  -- What was a child before is an element now if it was one then.
  have hold : ∀ q, (t.children q).filter (t.add p kind).1.isElement = t.elementChildren q := by
    intro q
    apply List.filter_congr
    intro c hc
    rw [isElement, isElement, element?_add, if_neg (Nat.ne_of_lt (h.lt_size_of_mem_children hc))]
  rw [elementChildren, children_add hp]
  split
  · rw [List.filter_append, hold, List.filter_singleton, isElement, element?_add, if_pos rfl]
    cases kind.element? <;> rfl
  · exact hold id

end Document

/-! ## 2. What an element can hold -/

namespace Markup

/-- An element `outer` can hold an element `inner`. -/
def Admits (outer inner : String) : Prop :=
  (outer = "p" → inner ∉ paragraphEnders) ∧ ∀ group ∈ exclusiveGroups, outer ∈ group → inner ∉ group

/-- What ends nothing when it begins can stand in everything. -/
theorem admits_of_harmless {inner : String} (hparagraph : inner ∉ paragraphEnders)
    (hgroup : ∀ group ∈ exclusiveGroups, inner ∉ group) (outer : String) : Admits outer inner :=
  ⟨fun _ => hparagraph, fun group h _ => hgroup group h⟩

theorem admits_landmark {inner : String} (h : inner ∈ landmarkTags) (outer : String) :
    Admits outer inner := by
  have hall : ∀ inner ∈ landmarkTags, inner ∉ paragraphEnders ∧
      ∀ group ∈ exclusiveGroups, inner ∉ group := by decide
  exact admits_of_harmless (hall inner h).1 (hall inner h).2 outer

theorem admits_headElement {inner : String} (h : inner ∈ headElements) (outer : String) :
    Admits outer inner := by
  have hall : ∀ inner ∈ headElements, inner ∉ paragraphEnders ∧
      ∀ group ∈ exclusiveGroups, inner ∉ group := by decide
  exact admits_of_harmless (hall inner h).1 (hall inner h).2 outer

end Markup

/-- Void elements are empty, and each element can hold the elements below it. -/
structure Document.Nested (t : Document) : Prop where
  wellFormed : t.WellFormed
  void : ∀ {id : NodeId} {tag : String}, t.tag? id = some tag → tag ∈ voidElements →
    t.children id = []
  kin : ∀ {p c : NodeId} {outer inner : String}, t.parent c = some p → t.tag? p = some outer →
    t.tag? c = some inner → Admits outer inner

/-- There is room at `p` for a node of this kind. -/
def Document.RoomFor (t : Document) (p : NodeId) (kind : NodeKind) : Prop :=
  ∀ outer, t.tag? p = some outer → outer ∉ voidElements ∧
    ∀ e, kind.element? = some e → Admits outer e.tag

namespace Document

theorem tag?_add (t : Document) (p : NodeId) (kind : NodeKind) (id : NodeId) :
    (t.add p kind).1.tag? id = if id = t.size then kind.element?.map Element.tag
      else t.tag? id := by
  unfold tag?
  rw [element?_add]
  split <;> rfl

theorem nested_empty : empty.Nested where
  wellFormed := wellFormed_empty
  void _ _ := children_empty _
  kin hparent := by
    rw [parent_empty] at hparent
    cases hparent

/-- **A node that finds room leaves everything in its place.** -/
theorem Nested.add {t : Document} (h : t.Nested) {p : NodeId} (hp : p < t.size) {kind : NodeKind}
    (hnames : ∀ e, kind.element? = some e → (e.attrs.entries.map Attribute.name).Nodup)
    (hroom : t.RoomFor p kind) :
    (t.add p kind).1.Nested where
  wellFormed := h.wellFormed.add hp hnames
  void := by
    intro id tag htag hvoid
    rw [tag?_add] at htag
    rw [children_add hp]
    by_cases hid : id = t.size
    · -- The new node has no children.
      rw [hid, if_neg (Nat.ne_of_gt hp), children_eq_nil (Nat.le_refl _)]
    · rw [if_neg hid] at htag
      rw [if_neg, h.void htag hvoid]
      rintro rfl
      exact (hroom tag htag).1 hvoid
  kin := by
    intro q c outer inner hparent houter hinner
    rw [parent_add] at hparent
    rw [tag?_add] at houter hinner
    by_cases hc : c = t.size
    · rw [if_pos hc] at hparent hinner
      cases hparent
      rw [if_neg (Nat.ne_of_lt hp)] at houter
      obtain ⟨e, he, rfl⟩ := Option.map_eq_some_iff.1 hinner
      exact (hroom outer houter).2 e he
    · rw [if_neg hc] at hparent hinner
      -- Nothing was below the new node before it came.
      have hq : q ≠ t.size := by
        rintro rfl
        have hmem := h.wellFormed.mem_children.2 hparent
        rw [children_eq_nil (Nat.le_refl _)] at hmem
        cases hmem
      rw [if_neg hq] at houter
      exact h.kin hparent houter hinner

end Document

/-! ## 3. What is open -/

namespace Markup

namespace Construction

theorem currentTagIn_iff {b : Construction} {tags : List String} :
    b.currentTagIn tags = true ↔ ∃ tag ∈ tags, b.currentTag = some tag := by
  unfold currentTagIn
  cases b.currentTag with
  | none => simp
  | some tag => simp

/-- None of the elements is void, and each can hold the next one inward. -/
structure Stacked (b : Construction) (opened : List NodeId) : Prop where
  solid : ∀ id ∈ opened, ∀ tag, b.tag? id = some tag → tag ∉ voidElements
  chain : opened.IsChain fun inner outer =>
    ∀ x y, b.tag? outer = some x → b.tag? inner = some y → Admits x y

namespace Stacked

variable {b b' : Construction} {opened : List NodeId}

theorem suffix (h : b.Stacked opened) {rest : List NodeId} (hsuffix : rest <:+ opened) :
    b.Stacked rest where
  solid id hid := h.solid id (hsuffix.subset hid)
  chain := h.chain.suffix hsuffix

/-- Only the tags count. -/
theorem congr (h : b.Stacked opened) (htags : ∀ id ∈ opened, b'.tag? id = b.tag? id) :
    b'.Stacked opened where
  solid id hid tag htag := h.solid id hid tag (htags id hid ▸ htag)
  chain := by
    refine h.chain.imp_of_mem_imp ?_
    intro inner outer hinner houter hadmits x y hx hy
    exact hadmits x y (htags outer houter ▸ hx) (htags inner hinner ▸ hy)

theorem singleton {id : NodeId} {tag : String} (htag : b.tag? id = some tag)
    (hvoid : tag ∉ voidElements) :
    b.Stacked [id] where
  solid x hx y hy := by
    rw [List.mem_singleton.1 hx, htag] at hy
    cases hy
    exact hvoid
  chain := .singleton id

theorem cons (h : b.Stacked opened) {id : NodeId} {tag : String} (htag : b.tag? id = some tag)
    (hvoid : tag ∉ voidElements)
    (hroom : ∀ outer ∈ opened.head?, ∀ x, b.tag? outer = some x → Admits x tag) :
    b.Stacked (id :: opened) where
  solid x hx y hy := by
    rcases List.mem_cons.1 hx with rfl | hx
    · rw [htag] at hy
      cases hy
      exact hvoid
    · exact h.solid x hx y hy
  chain := by
    rw [List.isChain_cons]
    refine ⟨fun outer houter x y hx hy => ?_, h.chain⟩
    rw [htag] at hy
    cases hy
    exact hroom outer houter x hx

end Stacked

/-- Nothing is out of place so far, and nothing that is open can hold what it must not. -/
structure Orderly (b : Construction) : Prop where
  furnished : b.Furnished fun _ => True
  nested : b.document.Nested
  top : b.document.elementChildren Document.root = b.html.toList
  inner : ∀ html, b.html = some html →
    b.document.elementChildren html = b.head.toList ++ b.body.toList
  stacked : b.Stacked b.opened

theorem orderly_new : Orderly {} where
  furnished := furnished_new
  nested := Document.nested_empty
  top := by decide
  inner html hhtml := by cases hhtml
  stacked := ⟨fun id hid => (by cases hid), .nil⟩

namespace Orderly

variable {b : Construction} (h : b.Orderly)
include h

/-! ## 4. Building blocks -/

/-- The same document and landmarks, with less open than before. -/
theorem close {b' : Construction} (hfurnished : b'.Furnished fun _ => True)
    (hdocument : b'.document = b.document) (hhtml : b'.html = b.html) (hhead : b'.head = b.head)
    (hbody : b'.body = b.body) (hsuffix : b'.opened <:+ b.opened) : b'.Orderly where
  furnished := hfurnished
  nested := hdocument ▸ h.nested
  top := by rw [hdocument, hhtml, h.top]
  inner html hsome := by rw [hdocument, hhead, hbody, h.inner html (hhtml ▸ hsome)]
  stacked := (h.stacked.suffix hsuffix).congr fun id _ => by rw [tag?, tag?, hdocument]

theorem tag?_of_mem_opened {b' : Construction} {p : NodeId} {kind : NodeKind}
    (hdocument : b'.document = (b.document.add p kind).1) {id : NodeId} (hid : id ∈ b.opened) :
    b'.tag? id = b.tag? id := by
  have hlt := Document.lt_size_of_isElement (h.furnished.mem_opened hid)
  rw [tag?_add hdocument, if_neg (Nat.ne_of_lt hlt)]

/-- What finds room inside of a landmark is put there. -/
theorem insert {p : NodeId} (hp : p < b.document.size) {kind : NodeKind}
    (hkind : ∀ e, kind.element? = some e → e.tag ∉ landmarkTags ∧ p ≠ Document.root ∧
      b.html ≠ some p ∧ (e.attrs.entries.map Attribute.name).Nodup)
    (hroom : b.document.RoomFor p kind) : (b.insert p kind).1.Orderly where
  furnished := h.furnished.insert hp fun e he =>
    ⟨(hkind e he).1, trivial, (hkind e he).2.1, (hkind e he).2.2.1⟩
  nested := h.nested.add hp (fun e he => (hkind e he).2.2.2) hroom
  top := by
    refine (Document.elementChildren_add h.nested.wellFormed hp kind Document.root).trans ?_
    split
    · next hroot =>
      -- Only a text or a comment goes below the document node.
      cases he : kind.element? with
      | some e => exact absurd hroot.symm (hkind e he).2.1
      | none => rw [← hroot, h.top, Option.map_none, Option.toList_none, List.append_nil]; rfl
    · exact h.top
  inner html hhtml := by
    refine (Document.elementChildren_add h.nested.wellFormed hp kind html).trans ?_
    split
    · next heq =>
      cases he : kind.element? with
      | some e => exact absurd (heq ▸ hhtml) (hkind e he).2.2.1
      | none =>
        rw [← heq, h.inner html hhtml, Option.map_none, Option.toList_none, List.append_nil]; rfl
    · exact h.inner html hhtml
  stacked := h.stacked.congr fun id hid => h.tag?_of_mem_opened rfl hid

theorem currentTag_eq {tag : String} (htag : b.tag? b.currentNode = some tag) :
    b.currentTag = some tag := by
  unfold currentNode at htag
  unfold currentTag
  cases hopened : b.opened with
  | nil =>
    rw [hopened] at htag
    exact absurd rfl (h.furnished.rooted.ne_root (isElement_of_tag? htag))
  | cons id opened =>
    rw [hopened] at htag
    exact htag

/-- Content never goes into a void element. -/
theorem currentNode_solid {tag : String} (htag : b.tag? b.currentNode = some tag) :
    tag ∉ voidElements := by
  obtain ⟨id, hid, hsame⟩ := Option.bind_eq_some_iff.1 (h.currentTag_eq htag)
  exact h.stacked.solid id (List.mem_of_head? hid) tag hsame

/-- There is always room for a text or a comment. -/
theorem insertData {p : NodeId} (hp : p < b.document.size)
    (hsolid : ∀ outer, b.tag? p = some outer → outer ∉ voidElements) {kind : NodeKind}
    (hkind : kind.element? = none) :
    (b.insert p kind).1.Orderly := by
  have hnone : ∀ {motive : Element → Prop} (e : Element), kind.element? = some e → motive e := by
    intro motive e he
    rw [hkind] at he
    cases he
  exact h.insert hp hnone fun outer houter => ⟨hsolid outer houter, hnone⟩

/-- An element is opened inside of what can hold it. -/
theorem push {html id : NodeId} (hhtml : b.html = some html) (hne : b.html ≠ some id) {tag : String}
    (htag : b.tag? id = some tag) (hvoid : tag ∉ voidElements)
    (hcurrent : ∀ outer, b.currentTag = some outer → Admits outer tag) : (b.push id).Orderly where
  furnished := h.furnished.push hhtml (isElement_of_tag? htag) hne
  nested := h.nested
  top := h.top
  inner := h.inner
  stacked := by
    have hstacked : b.Stacked (id :: b.opened) := by
      refine h.stacked.cons htag hvoid fun outer houter x hx => hcurrent x ?_
      rw [currentTag, Option.mem_def.1 houter]
      exact hx
    exact hstacked.congr fun _ _ => rfl

theorem pushUnlessVoid {html id : NodeId} (hhtml : b.html = some html) (hne : b.html ≠ some id)
    {tag : String} (htag : b.tag? id = some tag)
    (hcurrent : ∀ outer, b.currentTag = some outer → Admits outer tag) :
    (b.pushUnlessVoid tag id).Orderly := by
  unfold Construction.pushUnlessVoid
  split
  · exact h
  · next hvoid =>
      exact h.push hhtml hne htag (fun hmem => hvoid (List.contains_iff_mem.2 hmem)) hcurrent

end Orderly

end Construction

end Markup

end UniqueSelector
