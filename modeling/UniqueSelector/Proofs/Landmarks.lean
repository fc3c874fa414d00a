import UniqueSelector.Markup.Construction
import UniqueSelector.Proofs.Ascent
import UniqueSelector.Proofs.Streams
import Mathlib.Data.List.TakeWhile

/-!
# Landmarks — the elements that a document has once

Whatever tokens come, there is at most one element `html`, one `head` and one `body`, the first is
the only element below the document node, and it has no other element children than the other two.
Every node is attached below one that was there before.
-/

namespace UniqueSelector

/-! ## 1. Documents that grow from their root -/

namespace Document

/-- The document node comes first and is no element; every other node is below one that came
before it. -/
structure Rooted (t : Document) : Prop where
  nonempty : root < t.size
  ground : t.isElement root = false
  attached : ∀ id, id ≠ root → id < t.size → ∃ p < id, t.parent id = some p

theorem rooted_empty : empty.Rooted where
  nonempty := by decide
  ground := by decide
  attached id hid hsize := by
    change id < 1 at hsize
    exact absurd (Nat.lt_one_iff.1 hsize) hid

namespace Rooted

variable {t : Document} (h : t.Rooted)
include h

theorem add {p : NodeId} (hp : p < t.size) (kind : NodeKind) : (t.add p kind).1.Rooted where
  nonempty := by
    rw [size_add]
    exact Nat.lt_succ_of_lt h.nonempty
  ground := by
    unfold isElement
    rw [element?_add, if_neg (Nat.ne_of_lt h.nonempty)]
    exact h.ground
  attached id hid hsize := by
    rw [size_add] at hsize
    rw [parent_add]
    by_cases hnew : id = t.size
    · rw [if_pos hnew, hnew]
      exact ⟨p, hp, rfl⟩
    · rw [if_neg hnew]
      exact h.attached id hid (Nat.lt_of_le_of_ne (Nat.le_of_lt_succ hsize) hnew)

theorem ne_root {id : NodeId} (hid : t.isElement id = true) : id ≠ root := by
  rintro rfl
  rw [h.ground] at hid
  cases hid

/-- Every node but the first is below the first. -/
theorem exists_ascend (id : NodeId) (hid : id ≠ root) (hsize : id < t.size) :
    ∃ k, ascend t.parent (k + 1) id = some root := by
  induction id using Nat.strongRecOn with
  | _ id ih =>
    obtain ⟨p, hp, hparent⟩ := h.attached id hid hsize
    by_cases hroot : p = root
    · exact ⟨0, by rw [ascend, hparent, hroot]; rfl⟩
    · obtain ⟨k, hk⟩ := ih p hp hroot (Nat.lt_trans hp hsize)
      exact ⟨k + 1, by rw [ascend, hparent]; exact hk⟩

end Rooted

end Document

namespace Markup

/-! ## 2. Elements that occur once -/

def landmarkTags : List String := ["html", "head", "body"]

/-- What a token opens, if it opens anything, is `plain`. -/
def Token.Opens (plain : String → Prop) : Token → Prop
  | .startTag name _ _ => plain name
  | _ => True

namespace Construction

/-- The element that stands for a tag, if it is one of those that occur once. -/
def landmark? (b : Construction) (tag : String) : Option NodeId :=
  if tag = "html" then b.html
  else if tag = "head" then b.head
  else if tag = "body" then b.body
  else none

theorem landmark?_eq_none (b : Construction) {tag : String} (h : tag ∉ landmarkTags) :
    b.landmark? tag = none := by
  simp only [landmarkTags, List.mem_cons, List.not_mem_nil, or_false, not_or] at h
  rw [landmark?, if_neg h.1, if_neg h.2.1, if_neg h.2.2]

/-- The landmarks are found by their tags, everything else is inside of them, and so is what is
open; the tags of everything else are `plain`. -/
structure Furnished (b : Construction) (plain : String → Prop) : Prop where
  rooted : b.document.Rooted
  tagged : ∀ tag ∈ landmarkTags, ∀ id, b.tag? id = some tag ↔ b.landmark? tag = some id
  top : ∀ id, b.document.isElement id = true → b.document.parent id = some Document.root →
    b.html = some id
  inner : ∀ p id, b.html = some p → b.document.isElement id = true → b.document.parent id = some p →
    b.head = some id ∨ b.body = some id
  opened : ∃ inside, b.opened = inside ++ b.body.toList ++ b.html.toList ∧
    ∀ id ∈ inside, b.document.isElement id = true ∧ b.html ≠ some id
  bare : b.html = none → b.opened = [] ∧ b.head = none ∧ b.body = none
  tags : ∀ id tag, b.tag? id = some tag → tag ∈ landmarkTags ∨ plain tag

variable {plain : String → Prop}

theorem furnished_new : Furnished {} plain where
  rooted := Document.rooted_empty
  tagged tag htag id := by
    refine iff_of_false ?_ ?_
    · unfold tag?
      rw [Document.element?_empty]
      exact fun h => by cases h
    · unfold landmark?
      repeat' split
      all_goals exact fun h => by cases h
  top id hid := by
    unfold Document.isElement at hid
    rw [Document.element?_empty] at hid
    cases hid
  inner p id hp := by cases hp
  opened := ⟨[], rfl, fun id hid => by cases hid⟩
  bare _ := ⟨rfl, rfl, rfl⟩
  tags id tag htag := by
    unfold tag? at htag
    rw [Document.element?_empty] at htag
    cases htag

theorem exists_element_of_tag? {b : Construction} {id : NodeId} {tag : String}
    (h : b.tag? id = some tag) :
    ∃ e, b.document.element? id = some e ∧ e.tag = tag :=
  Option.map_eq_some_iff.1 h

theorem isElement_of_tag? {b : Construction} {id : NodeId} {tag : String}
    (h : b.tag? id = some tag) :
    b.document.isElement id = true := by
  obtain ⟨e, he, -⟩ := exists_element_of_tag? h
  exact Document.isElement_of_element? he

theorem tag?_size_ne {b : Construction} {id : NodeId} (hnew : id = b.document.size) (tag : String) :
    b.tag? id ≠ some tag :=
  fun htag => Nat.ne_of_lt (Document.lt_size_of_isElement (isElement_of_tag? htag)) hnew

theorem tag?_add {b b' : Construction} {p : NodeId} {kind : NodeKind}
    (hdocument : b'.document = (b.document.add p kind).1) (id : NodeId) :
    b'.tag? id = if id = b.document.size then kind.element?.map Element.tag else b.tag? id := by
  unfold tag?
  rw [hdocument, Document.element?_add]
  split <;> rfl

theorem tag?_insertElement (b : Construction) (p : NodeId) (tag : String) (attrs : Attributes) :
    (b.insertElement p tag attrs).1.tag? b.document.size = some tag := by
  rw [tag?_add (b := b) rfl, if_pos rfl]
  rfl

theorem isElement_add_of {b b' : Construction} {p : NodeId} {kind : NodeKind}
    (hdocument : b'.document = (b.document.add p kind).1) {id : NodeId}
    (h : b.document.isElement id = true) :
    b'.document.isElement id = true := by
  unfold Document.isElement
  rw [hdocument, Document.element?_add, if_neg (Nat.ne_of_lt (Document.lt_size_of_isElement h))]
  exact h

namespace Furnished

variable {b : Construction} (h : b.Furnished plain)
include h

/-! ## 3. What is there -/

theorem tag?_html {id : NodeId} : b.tag? id = some "html" ↔ b.html = some id :=
  h.tagged "html" (.head _) id

theorem tag?_head {id : NodeId} : b.tag? id = some "head" ↔ b.head = some id :=
  h.tagged "head" (.tail _ (.head _)) id

theorem tag?_body {id : NodeId} : b.tag? id = some "body" ↔ b.body = some id :=
  h.tagged "body" (.tail _ (.tail _ (.head _))) id

/-- Landmarks of different tags are different. -/
theorem html_ne {id : NodeId} {tag : String} (htag : b.tag? id = some tag) (hne : tag ≠ "html") :
    b.html ≠ some id := by
  intro hhtml
  rw [h.tag?_html.2 hhtml, Option.some.injEq] at htag
  exact hne htag.symm

theorem mem_opened {id : NodeId} (hid : id ∈ b.opened) : b.document.isElement id = true := by
  obtain ⟨inside, hopened, hinside⟩ := h.opened
  rw [hopened, List.mem_append, List.mem_append, Option.mem_toList, Option.mem_toList] at hid
  rcases hid with (hid | hbody) | hhtml
  · exact (hinside id hid).1
  · exact isElement_of_tag? (h.tag?_body.2 hbody)
  · exact isElement_of_tag? (h.tag?_html.2 hhtml)

theorem currentNode_lt : b.currentNode < b.document.size := by
  unfold Construction.currentNode
  cases hopened : b.opened with
  | nil => exact h.rooted.nonempty
  | cons id opened =>
    have hmem : id ∈ b.opened := hopened ▸ .head opened
    exact Document.lt_size_of_isElement (h.mem_opened hmem)

/-- Inside the body, content goes neither below the document node nor below `html`. -/
theorem currentNode_inside {body : NodeId} (hbody : b.body = some body) :
    b.document.isElement b.currentNode = true ∧ b.html ≠ some b.currentNode := by
  obtain ⟨inside, hopened, hinside⟩ := h.opened
  unfold Construction.currentNode
  rw [hopened, hbody]
  cases inside with
  | nil =>
    have htag := h.tag?_body.2 hbody
    exact ⟨isElement_of_tag? htag, h.html_ne htag (by decide)⟩
  | cons id inside => exact hinside id (.head inside)

/-! ## 4. What is added -/

/-- A new element does not disturb the landmarks unless it takes the place of one. -/
theorem tagged_add {b' : Construction} {p : NodeId} {e : Element}
    (hdocument : b'.document = (b.document.add p (.element e)).1) (hfree : b.landmark? e.tag = none)
    (hlandmark : ∀ tag ∈ landmarkTags, b'.landmark? tag = if tag = e.tag then
      some b.document.size else b.landmark? tag)
    (tag : String) (htag : tag ∈ landmarkTags) (id : NodeId) :
    b'.tag? id = some tag ↔ b'.landmark? tag = some id := by
  rw [tag?_add hdocument, hlandmark tag htag]
  by_cases hnew : id = b.document.size
  · rw [if_pos hnew, NodeKind.element?, Option.map_some, Option.some.injEq]
    by_cases heq : tag = e.tag
    · rw [if_pos heq, hnew]
      exact iff_of_true heq.symm rfl
    · -- Another landmark was there before.
      rw [if_neg heq, ← h.tagged tag htag]
      exact iff_of_false (Ne.symm heq) (tag?_size_ne hnew tag)
  · rw [if_neg hnew, h.tagged tag htag]
    by_cases heq : tag = e.tag
    · rw [if_pos heq, heq, hfree]
      exact iff_of_false (fun h => by cases h) fun hsize => hnew (Option.some.inj hsize).symm
    · rw [if_neg heq]

theorem tags_add {b' : Construction} {p : NodeId} (kind : NodeKind)
    (hdocument : b'.document = (b.document.add p kind).1)
    (hkind : ∀ e, kind.element? = some e → e.tag ∈ landmarkTags ∨ plain e.tag) (id : NodeId)
    (tag : String) (htag : b'.tag? id = some tag) : tag ∈ landmarkTags ∨ plain tag := by
  rw [tag?_add hdocument] at htag
  split at htag
  · obtain ⟨e, he, rfl⟩ := Option.map_eq_some_iff.1 htag
    exact hkind e he
  · exact h.tags id tag htag

/-- An element below a node is new, or it was there before. -/
theorem parent_add_cases {p q id : NodeId} {kind : NodeKind}
    (hid : (b.document.add p kind).1.isElement id = true)
    (hparent : (b.document.add p kind).1.parent id = some q) :
    (id = b.document.size ∧ p = q ∧ ∃ e, kind.element? = some e) ∨
      (b.document.isElement id = true ∧ b.document.parent id = some q ∧ q < b.document.size) := by
  unfold Document.isElement at hid
  rw [Document.element?_add] at hid
  rw [Document.parent_add] at hparent
  by_cases hnew : id = b.document.size
  · rw [if_pos hnew] at hid hparent
    exact .inl ⟨hnew, Option.some.inj hparent, Option.isSome_iff_exists.1 hid⟩
  · rw [if_neg hnew] at hid hparent
    have hold : b.document.isElement id = true := hid
    obtain ⟨r, hr, hparent'⟩ :=
      h.rooted.attached id (h.rooted.ne_root hold) (Document.lt_size_of_isElement hold)
    rw [hparent] at hparent'
    cases hparent'
    exact .inr ⟨hold, hparent, Nat.lt_trans hr (Document.lt_size_of_isElement hold)⟩

/-- A text or a comment disturbs no landmark. -/
theorem tagged_add_none {b' : Construction} {p : NodeId} {kind : NodeKind}
    (hdocument : b'.document = (b.document.add p kind).1) (hkind : kind.element? = none)
    (hlandmark : ∀ tag, b'.landmark? tag = b.landmark? tag) (tag : String)
    (htag : tag ∈ landmarkTags) (id : NodeId) :
    b'.tag? id = some tag ↔ b'.landmark? tag = some id := by
  rw [tag?_add hdocument, hlandmark, ← h.tagged tag htag, hkind]
  split
  · next hnew => exact iff_of_false (fun h => by cases h) (tag?_size_ne hnew tag)
  · rfl

/-- What is inserted is a text or a comment, or an element that is no landmark and goes inside
of one. -/
theorem insert {p : NodeId} (hp : p < b.document.size) {kind : NodeKind}
    (hkind : ∀ e, kind.element? = some e →
      e.tag ∉ landmarkTags ∧ plain e.tag ∧ p ≠ Document.root ∧ b.html ≠ some p) :
    (b.insert p kind).1.Furnished plain where
  rooted := h.rooted.add hp kind
  tagged := by
    cases kind with
    | element e =>
      obtain ⟨hplain, -⟩ := hkind e rfl
      apply h.tagged_add (e := e) rfl (b.landmark?_eq_none hplain)
      intro tag htag
      have hne : tag ≠ e.tag := fun heq => hplain (heq ▸ htag)
      rw [if_neg hne]
      rfl
    | _ => exact h.tagged_add_none rfl rfl fun _ => rfl
  top id hid hparent := by
    rcases h.parent_add_cases hid hparent with ⟨-, hroot, e, he⟩ | ⟨hold, hparent, -⟩
    · exact absurd hroot (hkind e he).2.2.1
    · exact h.top id hold hparent
  inner q id hq hid hparent := by
    rcases h.parent_add_cases hid hparent with ⟨-, rfl, e, he⟩ | ⟨hold, hparent, -⟩
    · exact absurd hq (hkind e he).2.2.2
    · exact h.inner q id hq hold hparent
  opened := by
    obtain ⟨inside, hopened, hinside⟩ := h.opened
    exact ⟨inside, hopened,
      fun id hid => ⟨isElement_add_of (b := b) rfl (hinside id hid).1, (hinside id hid).2⟩⟩
  bare := h.bare
  tags := h.tags_add _ rfl fun e he => .inr (hkind e he).2.1

theorem insertHtml (hnone : b.html = none) (attrs : Attributes) :
    Furnished { (b.insertElement Document.root "html" attrs).1 with
      html := some b.document.size, opened := [b.document.size] } plain where
  rooted := h.rooted.add h.rooted.nonempty _
  tagged := by
    apply h.tagged_add (e := ⟨"html", attrs⟩) rfl hnone
    intro tag htag
    simp only [landmarkTags, List.mem_cons, List.not_mem_nil, or_false] at htag
    rcases htag with rfl | rfl | rfl <;> rfl
  top id hid hparent := by
    rcases h.parent_add_cases hid hparent with ⟨hnew, -⟩ | ⟨hold, hparent, -⟩
    · exact congrArg some hnew.symm
    · rw [h.top id hold hparent] at hnone
      cases hnone
  inner p id hp hid hparent := by
    -- Nothing is below the new element yet.
    cases hp
    rcases h.parent_add_cases hid hparent with ⟨-, hroot, -⟩ | ⟨-, -, hlt⟩
    · exact absurd hroot (Nat.ne_of_lt h.rooted.nonempty)
    · exact absurd hlt (Nat.lt_irrefl _)
  opened := by
    refine ⟨[], ?_, fun id hid => by cases hid⟩
    show _ = [] ++ b.body.toList ++ [b.document.size]
    rw [(h.bare hnone).2.2]
    rfl
  bare hbare := by cases hbare
  tags := h.tags_add (.element ⟨"html", attrs⟩) rfl fun e he => by
    cases he
    exact .inl (.head _)

section html

variable {html : NodeId} (hhtml : b.html = some html)
include hhtml

theorem html_element : b.document.isElement html = true := isElement_of_tag? (h.tag?_html.2 hhtml)

theorem push {id : NodeId} (hid : b.document.isElement id = true) (hne : b.html ≠ some id) :
    (b.push id).Furnished plain where
  rooted := h.rooted
  tagged := h.tagged
  top := h.top
  inner := h.inner
  opened := by
    obtain ⟨inside, hopened, hinside⟩ := h.opened
    refine ⟨id :: inside, congrArg (id :: ·) hopened, fun x hx => ?_⟩
    rcases List.mem_cons.1 hx with rfl | hx
    · exact ⟨hid, hne⟩
    · exact hinside x hx
  bare hbare := by
    change b.html = none at hbare
    rw [hhtml] at hbare
    cases hbare
  tags := h.tags

theorem insertHead (hnone : b.head = none) (attrs : Attributes) :
    Furnished { (b.insertElement html "head" attrs).1 with head := some b.document.size }
      plain where
  rooted := h.rooted.add (Document.lt_size_of_isElement (h.html_element hhtml)) _
  tagged := by
    apply h.tagged_add (e := ⟨"head", attrs⟩) rfl hnone
    intro tag htag
    simp only [landmarkTags, List.mem_cons, List.not_mem_nil, or_false] at htag
    rcases htag with rfl | rfl | rfl <;> rfl
  top id hid hparent := by
    rcases h.parent_add_cases hid hparent with ⟨-, hroot, -⟩ | ⟨hold, hparent, -⟩
    · exact absurd hroot (h.rooted.ne_root (h.html_element hhtml))
    · exact h.top id hold hparent
  inner p id hp hid hparent := by
    rcases h.parent_add_cases hid hparent with ⟨hnew, -⟩ | ⟨hold, hparent, -⟩
    · exact .inl (congrArg some hnew.symm)
    · rcases h.inner p id hp hold hparent with hhead | hbody
      · rw [hnone] at hhead
        cases hhead
      · exact .inr hbody
  opened := by
    obtain ⟨inside, hopened, hinside⟩ := h.opened
    exact ⟨inside, hopened,
      fun id hid => ⟨isElement_add_of (b := b) rfl (hinside id hid).1, (hinside id hid).2⟩⟩
  bare hbare := by
    change b.html = none at hbare
    rw [hhtml] at hbare
    cases hbare
  tags := h.tags_add (.element ⟨"head", attrs⟩) rfl fun e he => by
    cases he
    exact .inl (.tail _ (.head _))

/-- Nothing stays open but `html` when the body is about to be opened. -/
theorem popUntil_opened (hnone : b.body = none) : (b.popUntil html).opened = [html] := by
  obtain ⟨inside, hopened, hinside⟩ := h.opened
  have hpassed : ∀ id ∈ inside, (id != html) = true := by
    intro id hid
    rw [bne_iff_ne]
    rintro rfl
    exact (hinside id hid).2 hhtml
  show b.opened.dropWhile (· != html) = [html]
  rw [hopened, hnone, hhtml, Option.toList_none, List.append_nil,
    List.dropWhile_append_of_pos hpassed]
  simp

theorem insertBody (hnone : b.body = none) (attrs : Attributes) :
    Furnished { (b.insertElement html "body" attrs).1 with
      body := some b.document.size, opened := [b.document.size, html] } plain where
  rooted := h.rooted.add (Document.lt_size_of_isElement (h.html_element hhtml)) _
  tagged := by
    apply h.tagged_add (e := ⟨"body", attrs⟩) rfl hnone
    intro tag htag
    simp only [landmarkTags, List.mem_cons, List.not_mem_nil, or_false] at htag
    rcases htag with rfl | rfl | rfl <;> rfl
  top id hid hparent := by
    rcases h.parent_add_cases hid hparent with ⟨-, hroot, -⟩ | ⟨hold, hparent, -⟩
    · exact absurd hroot (h.rooted.ne_root (h.html_element hhtml))
    · exact h.top id hold hparent
  inner p id hp hid hparent := by
    rcases h.parent_add_cases hid hparent with ⟨hnew, -⟩ | ⟨hold, hparent, -⟩
    · exact .inr (congrArg some hnew.symm)
    · rcases h.inner p id hp hold hparent with hhead | hbody
      · exact .inl hhead
      · rw [hnone] at hbody
        cases hbody
  opened := by
    refine ⟨[], ?_, fun id hid => by cases hid⟩
    show _ = [] ++ [b.document.size] ++ b.html.toList
    rw [hhtml]
    rfl
  bare hbare := by
    change b.html = none at hbare
    rw [hhtml] at hbare
    cases hbare
  tags := h.tags_add (.element ⟨"body", attrs⟩) rfl fun e he => by
    cases he
    exact .inl (.tail _ (.tail _ (.head _)))

end html

/-! ## 5. What is supplied -/

theorem ensureHtml : b.ensureHtml.1.Furnished plain ∧ b.ensureHtml.1.html = some b.ensureHtml.2 ∧
    b.ensureHtml.1.head = b.head ∧ b.ensureHtml.1.body = b.body := by
  unfold Construction.ensureHtml
  cases hhtml : b.html with
  | some html => exact ⟨h, hhtml, rfl, rfl⟩
  | none =>
    have hopened : b.opened ++ [b.document.size] = [b.document.size] := by
      rw [(h.bare hhtml).1, List.nil_append]
    refine ⟨?_, rfl, rfl, rfl⟩
    show Furnished { (b.insertElement Document.root "html" .empty).1 with
      html := some b.document.size, opened := b.opened ++ [b.document.size] } plain
    rw [hopened]
    exact h.insertHtml hhtml .empty

theorem ensureHead :
    b.ensureHead.1.Furnished plain ∧ b.ensureHead.1.head = some b.ensureHead.2 := by
  unfold Construction.ensureHead
  cases hhead : b.head with
  | some head => exact ⟨h, hhead⟩
  | none =>
    obtain ⟨hfurnished, hhtml, hsame, -⟩ := h.ensureHtml
    exact ⟨hfurnished.insertHead hhtml (hsame.trans hhead) .empty, rfl⟩

theorem openBody (hnone : b.body = none) (attrs : Attributes) :
    (b.openBody attrs).1.Furnished plain ∧
      (b.openBody attrs).1.body = some (b.openBody attrs).2 := by
  obtain ⟨hfurnished, hhtml, -, hsame⟩ := h.ensureHtml
  have hbody := hsame.trans hnone
  refine ⟨?_, rfl⟩
  show Furnished { (b.ensureHtml.1.insertElement b.ensureHtml.2 "body" attrs).1 with
    body := some b.ensureHtml.1.document.size
    opened := b.ensureHtml.1.document.size :: (b.ensureHtml.1.popUntil b.ensureHtml.2).opened }
      plain
  rw [hfurnished.popUntil_opened hhtml hbody]
  exact hfurnished.insertBody hhtml hbody attrs

/-- A body that is there is open. -/
theorem contains_body {body : NodeId} (hbody : b.body = some body) :
    b.opened.contains body = true := by
  obtain ⟨inside, hopened, -⟩ := h.opened
  rw [List.contains_iff_mem, hopened, hbody]
  exact List.mem_append_left _ (List.mem_append_right _ (.head _))

theorem ensureBody :
    b.ensureBody.1.Furnished plain ∧ b.ensureBody.1.body = some b.ensureBody.2 := by
  unfold Construction.ensureBody
  cases hbody : b.body with
  | some body =>
    dsimp only
    rw [if_pos (h.contains_body hbody)]
    exact ⟨h, hbody⟩
  | none => exact h.openBody hbody .empty

/-! ## 6. Tokens -/

theorem pushUnlessVoid {html id : NodeId} (hhtml : b.html = some html)
    (hid : b.document.isElement id = true) (hne : b.html ≠ some id) (tag : String) :
    (b.pushUnlessVoid tag id).Furnished plain := by
  unfold Construction.pushUnlessVoid
  split
  · exact h
  · exact h.push hhtml hid hne

/-- With nothing else open, the innermost element is the body or `html`. -/
theorem currentTag_mem_landmarkTags (hopened : b.opened = b.body.toList ++ b.html.toList)
    {tag : String} (htag : b.currentTag = some tag) : tag ∈ landmarkTags := by
  unfold Construction.currentTag at htag
  rw [hopened] at htag
  cases hbody : b.body with
  | some body =>
    rw [hbody] at htag
    change b.tag? body = some tag at htag
    rw [h.tag?_body.2 hbody] at htag
    cases htag
    exact .tail _ (.tail _ (.head _))
  | none =>
    rw [hbody] at htag
    cases hhtml : b.html with
    | some html =>
      rw [hhtml] at htag
      change b.tag? html = some tag at htag
      rw [h.tag?_html.2 hhtml] at htag
      cases htag
      exact .head _
    | none =>
      rw [hhtml] at htag
      cases htag

/-- What is closed on the way is no landmark. -/
theorem pop {tags : List String} (htags : ∀ tag ∈ tags, tag ∉ landmarkTags)
    (hcurrent : b.currentTagIn tags = true) :
    b.pop.Furnished plain where
  rooted := h.rooted
  tagged := h.tagged
  top := h.top
  inner := h.inner
  opened := by
    obtain ⟨inside, hopened, hinside⟩ := h.opened
    cases inside with
    | cons id inside =>
      refine ⟨inside, ?_, fun x hx => hinside x (.tail _ hx)⟩
      show b.opened.tail = _
      rw [hopened]
      rfl
    | nil =>
      -- The tag of the innermost element would be among those that are closed.
      exfalso
      unfold Construction.currentTagIn at hcurrent
      cases htag : b.currentTag with
      | none =>
        rw [htag] at hcurrent
        cases hcurrent
      | some tag =>
        rw [htag] at hcurrent
        exact htags tag (List.contains_iff_mem.1 hcurrent)
          (h.currentTag_mem_landmarkTags hopened htag)
  bare hbare := by
    have hopened := (h.bare hbare).1
    refine ⟨?_, (h.bare hbare).2⟩
    show b.opened.tail = []
    rw [hopened]
    rfl
  tags := h.tags

theorem closeParagraph (tag : String) :
    (b.closeParagraph tag).Furnished plain ∧ (b.closeParagraph tag).body = b.body ∧
      (b.closeParagraph tag).html = b.html := by
  unfold Construction.closeParagraph
  split
  · next hclose =>
    rw [Bool.and_eq_true] at hclose
    exact ⟨h.pop (by decide) hclose.2, rfl, rfl⟩
  · exact ⟨h, rfl, rfl⟩

theorem closeGroup (tag : String) :
    (b.closeGroup tag).Furnished plain ∧ (b.closeGroup tag).body = b.body ∧
      (b.closeGroup tag).html = b.html := by
  have hgroups : ∀ group ∈ exclusiveGroups, ∀ tag ∈ group, tag ∉ landmarkTags := by decide
  unfold Construction.closeGroup
  split
  · exact ⟨h, rfl, rfl⟩
  · next group hgroup =>
    split
    · next hclose =>
        exact ⟨h.pop (hgroups group (List.mem_of_find?_eq_some hgroup)) hclose, rfl, rfl⟩
    · exact ⟨h, rfl, rfl⟩

theorem startHtml (attrs : Attributes) : (b.startHtml attrs).Furnished plain := by
  unfold Construction.startHtml
  cases hhtml : b.html with
  | some html => exact h
  | none =>
    show Furnished { (b.insertElement Document.root "html" attrs).1 with
      html := some b.document.size, opened := b.document.size :: b.opened } plain
    rw [(h.bare hhtml).1]
    exact h.insertHtml hhtml attrs

theorem startHead (attrs : Attributes) : (b.startHead attrs).Furnished plain := by
  obtain ⟨hfurnished, hhtml, -, -⟩ := h.ensureHtml
  show Furnished (if b.ensureHtml.1.head.isNone && b.ensureHtml.1.body.isNone then _
    else b.ensureHtml.1) plain
  split
  · next hnone =>
    rw [Bool.and_eq_true, Option.isNone_iff_eq_none] at hnone
    have hhead := hfurnished.insertHead hhtml hnone.1 attrs
    have htag := hhead.tag?_head.2 rfl
    exact hhead.push hhtml (isElement_of_tag? htag) (hhead.html_ne htag (by decide))
  · exact hfurnished

theorem startBody (attrs : Attributes) : (b.startBody attrs).Furnished plain := by
  unfold Construction.startBody
  split
  · next hnone => exact (h.openBody (Option.isNone_iff_eq_none.1 hnone) attrs).1
  · exact h

section plain

variable {tag : String} (htag : tag ∉ landmarkTags) (hplain : plain tag)
include htag hplain

/-- A plain element goes inside of a landmark and may be opened there. -/
theorem insertPlain {html p : NodeId} (hhtml : b.html = some html)
    (hp : b.document.isElement p = true) (hne : b.html ≠ some p) (attrs : Attributes) :
    (((b.insertElement p tag attrs).1).pushUnlessVoid tag (b.insertElement p tag attrs).2).Furnished
      plain := by
  have hinsert : (b.insertElement p tag attrs).1.Furnished plain := by
    apply h.insert (Document.lt_size_of_isElement hp)
    intro e he
    cases he
    exact ⟨htag, hplain, h.rooted.ne_root hp, hne⟩
  have hnew := tag?_insertElement b p tag attrs
  apply hinsert.pushUnlessVoid hhtml (isElement_of_tag? hnew)
  exact hinsert.html_ne hnew fun heq => htag (heq ▸ .head _)

theorem startInHead (attrs : Attributes) : (b.startInHead tag attrs).Furnished plain := by
  obtain ⟨hfurnished, hhead⟩ := h.ensureHead
  have htagged := hfurnished.tag?_head.2 hhead
  cases hhtml : b.ensureHead.1.html with
  | none =>
    rw [(hfurnished.bare hhtml).2.1] at hhead
    cases hhead
  | some html =>
    exact hfurnished.insertPlain htag hplain hhtml (isElement_of_tag? htagged)
      (hfurnished.html_ne htagged (by decide)) attrs

theorem startInBody (attrs : Attributes) : (b.startInBody tag attrs).Furnished plain := by
  obtain ⟨hbody, hsome⟩ := h.ensureBody
  obtain ⟨hparagraph, hsame, -⟩ := hbody.closeParagraph tag
  obtain ⟨hgroup, hsame', -⟩ := hparagraph.closeGroup tag
  have hsome := hsame'.trans (hsame.trans hsome)
  have hcurrent := hgroup.currentNode_inside hsome
  cases hhtml : ((b.ensureBody.1.closeParagraph tag).closeGroup tag).html with
  | none =>
    rw [(hgroup.bare hhtml).2.2] at hsome
    cases hsome
  | some html => exact hgroup.insertPlain htag hplain hhtml hcurrent.1 hcurrent.2 attrs

end plain

theorem startTag {tag : String} (hplain : plain tag) (attrs : Attributes) :
    (b.startTag tag attrs).Furnished plain := by
  unfold Construction.startTag
  split
  · exact h.startHtml attrs
  · next hhtml =>
    split
    · exact h.startHead attrs
    · next hhead =>
      split
      · exact h.startBody attrs
      · next hbody =>
        have htag : tag ∉ landmarkTags := by simp [landmarkTags, hhtml, hhead, hbody]
        split
        · exact h.startInHead htag hplain attrs
        · exact h.startInBody htag hplain attrs

/-- An end tag closes nothing from the body outward. -/
theorem endTag (tag : String) : (b.endTag tag).Furnished plain := by
  unfold Construction.endTag
  split
  · exact h
  · next hplain =>
    rw [Bool.or_eq_true, Bool.or_eq_true, not_or, not_or, decide_eq_true_eq,
      decide_eq_true_eq] at hplain
    split
    · exact ⟨h.rooted, h.tagged, h.top, h.inner, h.opened, h.bare, h.tags⟩
    · next id opened hdrop =>
      have hdropped : ∃ inside, opened = inside ++ b.body.toList ++ b.html.toList ∧
          ∀ id ∈ inside, b.document.isElement id = true ∧ b.html ≠ some id := by
        obtain ⟨inside, hopened, hinside⟩ := h.opened
        have houter : (b.body.toList ++ b.html.toList).dropWhile
            (fun id => b.tag? id != some tag) = [] := by
          rw [List.dropWhile_eq_nil_iff]
          intro id hid
          rw [List.mem_append, Option.mem_toList, Option.mem_toList] at hid
          rw [bne_iff_ne]
          rcases hid with hbody | hhtml
          · rw [h.tag?_body.2 hbody]
            exact fun heq => hplain.1.2 (Option.some.inj heq).symm
          · rw [h.tag?_html.2 hhtml]
            exact fun heq => hplain.1.1 (Option.some.inj heq).symm
        rw [hopened, List.append_assoc, List.dropWhile_append, houter] at hdrop
        split at hdrop
        · cases hdrop
        · cases hinner : inside.dropWhile (fun id => b.tag? id != some tag) with
          | nil =>
            rw [hinner] at hdrop
            simp_all
          | cons x rest =>
            rw [hinner, List.cons_append, List.cons.injEq] at hdrop
            have hsub : x :: rest ⊆ inside := hinner ▸ (List.dropWhile_suffix _).subset
            exact ⟨rest, by rw [← hdrop.2, List.append_assoc],
              fun id hid => hinside id (hsub (.tail x hid))⟩
      refine ⟨h.rooted, h.tagged, h.top, h.inner, hdropped, fun hbare => ?_, h.tags⟩
      have hnil := (h.bare hbare).1
      rw [hnil] at hdrop
      cases hdrop

theorem insertText (data : String) : (b.insertText data).Furnished plain := by
  unfold Construction.insertText
  split
  · split
    · exact h
    · obtain ⟨hbody, hsome⟩ := h.ensureBody
      have hlt := Document.lt_size_of_isElement (isElement_of_tag? (hbody.tag?_body.2 hsome))
      exact hbody.insert hlt fun e he => by cases he
  · exact h.insert h.currentNode_lt fun e he => by cases he

theorem step {token : Token} (htoken : token.Opens plain) : (b.step token).Furnished plain := by
  cases token with
  | doctype name => exact h
  | startTag name selfClosing attributes => exact h.startTag htoken _
  | endTag name => exact h.endTag name
  | comment data => exact h.insert h.currentNode_lt fun e he => by cases he
  | text data => exact h.insertText data
  | endOfFile => exact h

omit h in
/-- **Whatever the tokens are**, the landmarks stay where they are. -/
theorem run (h : b.Furnished plain) {tokens : List Token}
    (htokens : ∀ token ∈ tokens, token.Opens plain) :
    (b.run tokens).Furnished plain := by
  induction tokens generalizing b with
  | nil => exact h
  | cons token tokens ih =>
    -- The end mark stops the run, and any other token is a step.
    have hrest := ih (h.step (htokens token (.head _))) fun t ht => htokens t (.tail _ ht)
    cases token with
    | endOfFile => exact h
    | _ => exact hrest

end Furnished

end Construction

end Markup

/-! ## 7. Documents from tokens -/

open Markup

/-- `html`, `head` and `body` occur once, and everything else is inside of the last two. -/
structure Document.Landmarked (t : Document) : Prop where
  rooted : t.Rooted
  once : ∀ {x y : NodeId} {d e : Element}, t.element? x = some d → t.element? y = some e →
    d.tag = e.tag → d.tag ∈ landmarkTags → x = y
  top : ∀ {id : NodeId} {e : Element}, t.element? id = some e → t.parent id = some root →
    e.tag = "html"
  inner : ∀ {p id : NodeId} {d e : Element}, t.element? p = some d → d.tag = "html" →
    t.element? id = some e → t.parent id = some p → e.tag = "head" ∨ e.tag = "body"

namespace Markup

theorem Construction.Furnished.landmarked {b : Construction} {plain : String → Prop}
    (h : b.Furnished plain) :
    b.document.Landmarked where
  rooted := h.rooted
  once hx hy htag hd := by
    have hx' := (h.tagged _ hd _).1 (Option.map_eq_some_iff.2 ⟨_, hx, rfl⟩)
    have hy' := (h.tagged _ hd _).1 (Option.map_eq_some_iff.2 ⟨_, hy, htag.symm⟩)
    exact Option.some.inj (hx'.symm.trans hy')
  top he hparent := by
    have hhtml := h.top _ (Document.isElement_of_element? he) hparent
    obtain ⟨e', he', htag⟩ := exists_element_of_tag? (h.tag?_html.2 hhtml)
    rw [he] at he'
    cases he'
    exact htag
  inner hd hhtml he hparent := by
    have hp := h.tag?_html.1 (Option.map_eq_some_iff.2 ⟨_, hd, hhtml⟩)
    rcases h.inner _ _ hp (Document.isElement_of_element? he) hparent with hhead | hbody
    · obtain ⟨e', he', htag⟩ := exists_element_of_tag? (h.tag?_head.2 hhead)
      rw [he] at he'
      cases he'
      exact .inl htag
    · obtain ⟨e', he', htag⟩ := exists_element_of_tag? (h.tag?_body.2 hbody)
      rw [he] at he'
      cases he'
      exact .inr htag

/-- **Whatever the tokens are, the document has each landmark once.** -/
theorem landmarked_construct (tokens : List Token) : (construct tokens).document.Landmarked := by
  have htokens : ∀ token ∈ tokens, token.Opens fun _ => True := by
    intro token _
    cases token <;> trivial
  exact (Construction.furnished_new.run htokens).landmarked

theorem landmarked_parse (html : String) : (parse html).Landmarked := landmarked_construct _

/-- What is true of the landmarks and of all that the tokens open is true of every tag. -/
theorem tag_of_parse {plain : String → Prop} (hlandmarks : ∀ tag ∈ landmarkTags, plain tag)
    {html : String} (htokens : ∀ token ∈ (lex html).tokens, token.Opens plain) {id : NodeId}
    {e : Element} (h : (parse html).element? id = some e) : plain e.tag := by
  have hfurnished :=
    Construction.furnished_new.run fun token htoken => htokens token (Array.mem_toList_iff.1 htoken)
  rcases hfurnished.tags id e.tag (Option.map_eq_some_iff.2 ⟨e, h, rfl⟩) with hlandmark | hplain
  · exact hlandmarks e.tag hlandmark
  · exact hplain

theorem tagName_of_mem_landmarkTags {tag : String} (h : tag ∈ landmarkTags) : TagName tag := by
  have hall : ∀ tag ∈ landmarkTags, TagName tag := by decide
  exact hall tag h

/-- The tags of a document from text are names of tags, which begin with a small letter and have no
capital one. -/
theorem spelled_of_parse {html : String} {id : NodeId} {e : Element}
    (h : (parse html).element? id = some e) :
    SpelledTagName e.tag := by
  have hlandmarks : ∀ tag ∈ landmarkTags, SpelledTagName tag := by decide
  refine tag_of_parse hlandmarks (fun token htoken => ?_) h
  have hstream := (Lexer.tidy_ofString html).run
  cases token with
  | startTag name _ _ => exact (hstream.spellable _ (Array.mem_toList_iff.2 htoken) (by simp)).1
  | _ => trivial

theorem tagName_of_parse {html : String} {id : NodeId} {e : Element}
    (h : (parse html).element? id = some e) :
    TagName e.tag := (spelled_of_parse h).2

end Markup

end UniqueSelector
