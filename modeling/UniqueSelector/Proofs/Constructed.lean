import UniqueSelector.Markup.Construction
import UniqueSelector.Proofs.Tokens

/-!
# Constructed — what is true of documents that are read from text

Whatever tokens come, the document in the making stays well-formed, nodes are added below the
document node and below elements only, and the elements keep what is known of their tokens.
-/

namespace UniqueSelector

open Markup

/-! ## 1. Attributes -/

namespace Attributes

theorem mem_insertInto {name value : String} {as : List Attribute} {a : Attribute}
    (h : a ∈ (insertInto name value as).2) : a = ⟨name, value⟩ ∨ a ∈ as := by
  induction as with
  | nil => exact .inl (List.mem_singleton.1 h)
  | cons b bs ih =>
    unfold insertInto at h
    by_cases hname : b.name = name
    · rw [if_pos hname] at h
      rcases List.mem_cons.1 h with rfl | h
      · exact .inl rfl
      · exact .inr (.tail _ h)
    · rw [if_neg hname] at h
      rcases List.mem_cons.1 h with rfl | h
      · exact .inr (.head bs)
      · exact (ih h).imp_right (.tail _)

/-- An old name keeps its place, and a new one goes to the end. -/
theorem map_name_insertInto (name value : String) (as : List Attribute) :
    (insertInto name value as).2.map Attribute.name =
      if name ∈ as.map Attribute.name then as.map Attribute.name
        else as.map Attribute.name ++ [name] := by
  induction as with
  | nil => rfl
  | cons a as ih =>
    rw [insertInto]
    by_cases hname : a.name = name
    · simp [hname]
    · rw [if_neg hname, List.map_cons, ih, List.map_cons]
      simp only [List.mem_cons, Ne.symm hname, false_or, List.cons_append]
      split <;> rfl

/-- The names stay distinct. -/
theorem nodup_insertInto (name value : String) {as : List Attribute}
    (h : (as.map Attribute.name).Nodup) :
    ((insertInto name value as).2.map Attribute.name).Nodup := by
  rw [map_name_insertInto]
  split
  · exact h
  · next hname => exact List.concat_eq_append ▸ h.concat hname

theorem ofList_concat (pairs : List Attribute) (a : Attribute) :
    ofList (pairs ++ [a]) = ((ofList pairs).insert a.name a.value).2 := by
  rw [ofList, List.foldl_append]
  rfl

/-- The names are distinct, and neither names nor values have U+0000 in them. -/
structure Sound (attrs : Attributes) : Prop where
  names : (attrs.entries.map Attribute.name).Nodup
  nullFree : ∀ a ∈ attrs.entries, a.NullFree

theorem sound_empty : empty.Sound where
  names := List.nodup_nil
  nullFree _ h := by cases h

theorem Sound.insert {attrs : Attributes} (h : attrs.Sound) {a : Attribute} (ha : a.NullFree) :
    (attrs.insert a.name a.value).2.Sound where
  names := nodup_insertInto a.name a.value h.names
  nullFree b hb := by
    rcases mem_insertInto hb with rfl | hb
    · exact ha
    · exact h.nullFree b hb

theorem sound_ofList {pairs : List Attribute} (h : ∀ a ∈ pairs, a.NullFree) :
    (ofList pairs).Sound := by
  induction pairs using List.reverseRecOn with
  | nil => exact sound_empty
  | append_singleton pairs a ih =>
    rw [List.forall_mem_append, List.forall_mem_singleton] at h
    rw [ofList_concat]
    exact (ih h.1).insert h.2

end Attributes

/-! ## 2. Documents -/

/-- The element has a tag that begins with a letter, and no text of it has U+0000 in it. -/
structure Element.Sound (e : Element) : Prop where
  tag : '\x00' ∉ e.tag.toList
  lettered : StartsWithLetter e.tag
  attrs : e.attrs.Sound

/-- What is true of a document from text: only the document node and elements have children. -/
structure Document.Sound (t : Document) : Prop where
  wellFormed : t.WellFormed
  elements : ∀ {id : NodeId} {e : Element}, t.element? id = some e → e.Sound
  parents : ∀ {c p : NodeId}, t.parent c = some p → p = Document.root ∨ t.isElement p = true

namespace Document

variable {t : Document}

theorem Sound.nullFree (h : t.Sound) : t.NullFree :=
  fun he => ⟨(h.elements he).tag, (h.elements he).attrs.nullFree⟩

theorem sound_empty : empty.Sound where
  wellFormed := wellFormed_empty
  elements he := by
    rw [element?_empty] at he
    cases he
  parents hp := by
    rw [parent_empty] at hp
    cases hp

theorem isElement_add {p id : NodeId} (kind : NodeKind) (h : t.isElement id = true) :
    (t.add p kind).1.isElement id = true := by
  unfold isElement
  rw [element?_add, if_neg (Nat.ne_of_lt (lt_size_of_isElement h))]
  exact h

theorem isElement_add_new (t : Document) (p : NodeId) (e : Element) :
    (t.add p (.element e)).1.isElement (t.add p (.element e)).2 = true := by
  show (t.add p (.element e)).1.isElement t.size = true
  unfold isElement
  rw [element?_add, if_pos rfl]
  rfl

/-- **A node that is added to a document from text leaves one.** -/
theorem Sound.add (h : t.Sound) {p : NodeId} (hp : p = root ∨ t.isElement p = true)
    {kind : NodeKind} (hkind : ∀ e, kind.element? = some e → e.Sound) : (t.add p kind).1.Sound where
  wellFormed := by
    apply h.wellFormed.add
    · rcases hp with rfl | hp
      · exact root_lt_size h.wellFormed
      · exact lt_size_of_isElement hp
    · exact fun e he => (hkind e he).attrs.names
  elements he := by
    rw [element?_add] at he
    split at he
    · exact hkind _ he
    · exact h.elements he
  parents hq := by
    rw [parent_add] at hq
    split at hq
    · cases hq
      exact hp.imp_right (isElement_add kind)
    · exact (h.parents hq).imp_right (isElement_add kind)

end Document

/-! ## 3. Documents in the making -/

namespace Markup

namespace Construction

/-- The node is open, or it is one of the landmarks. -/
def Holds (b : Construction) (id : NodeId) : Prop :=
  id ∈ b.opened ∨ b.html = some id ∨ b.head = some id ∨ b.body = some id

/-- The document is sound so far, and whatever is open or a landmark is an element. -/
structure Sound (b : Construction) : Prop where
  document : b.document.Sound
  held : ∀ {id : NodeId}, b.Holds id → b.document.isElement id = true

/-- A construction with an element of its document. -/
def Gives (r : Construction × NodeId) : Prop := r.1.Sound ∧ r.1.document.isElement r.2 = true

theorem sound_new : Sound {} where
  document := Document.sound_empty
  held := by
    rintro id (h | h | h | h) <;> cases h

namespace Sound

variable {b : Construction} (h : b.Sound)
include h

/-- The same document, with nothing held that is not an element. -/
theorem congr {b' : Construction} (hdocument : b'.document = b.document)
    (hheld : ∀ {id}, b'.Holds id → b.Holds id ∨ b.document.isElement id = true) : b'.Sound where
  document := hdocument ▸ h.document
  held hid := by
    rw [hdocument]
    rcases hheld hid with hid | hid
    · exact h.held hid
    · exact hid

/-- The place for content is the document node or an element. -/
theorem currentNode :
    b.currentNode = Document.root ∨ b.document.isElement b.currentNode = true := by
  unfold Construction.currentNode
  cases hopened : b.opened with
  | nil => exact .inl rfl
  | cons id opened =>
    have hmem : id ∈ b.opened := hopened ▸ .head opened
    exact .inr (h.held (.inl hmem))

theorem insert {parent : NodeId}
    (hparent : parent = Document.root ∨ b.document.isElement parent = true) {kind : NodeKind}
    (hkind : ∀ e, kind.element? = some e → e.Sound) : (b.insert parent kind).1.Sound where
  document := h.document.add hparent hkind
  held hid := Document.isElement_add kind (h.held hid)

theorem insertElement {parent : NodeId}
    (hparent : parent = Document.root ∨ b.document.isElement parent = true) {tag : String}
    {attrs : Attributes} (he : Element.Sound ⟨tag, attrs⟩) :
    Gives (b.insertElement parent tag attrs) := by
  refine ⟨h.insert hparent fun e heq => ?_,
    Document.isElement_add_new b.document parent ⟨tag, attrs⟩⟩
  cases heq
  exact he

theorem push {id : NodeId} (hid : b.document.isElement id = true) : (b.push id).Sound := by
  refine h.congr rfl ?_
  rintro x (hx | hx)
  · rcases List.mem_cons.1 hx with rfl | hx
    · exact .inr hid
    · exact .inl (.inl hx)
  · exact .inl (.inr hx)

theorem pop : b.pop.Sound :=
  h.congr rfl fun hx => .inl (hx.imp_left List.mem_of_mem_tail)

theorem popUntil (id : NodeId) : (b.popUntil id).Sound :=
  h.congr rfl fun hx => .inl (hx.imp_left fun hx => (List.dropWhile_suffix _).subset hx)

theorem pushUnlessVoid (tag : String) {id : NodeId} (hid : b.document.isElement id = true) :
    (b.pushUnlessVoid tag id).Sound := by
  unfold Construction.pushUnlessVoid
  split
  · exact h
  · exact h.push hid

theorem closeParagraph (tag : String) : (b.closeParagraph tag).Sound := by
  unfold Construction.closeParagraph
  split
  · exact h.pop
  · exact h

theorem closeGroup (tag : String) : (b.closeGroup tag).Sound := by
  unfold Construction.closeGroup
  split
  · exact h
  · split
    · exact h.pop
    · exact h

end Sound

/-! ## 4. What is supplied -/

theorem sound_supplied {tag : String} (htag : tag ∈ ["html", "head", "body"]) {attrs : Attributes}
    (hattrs : attrs.Sound) : Element.Sound ⟨tag, attrs⟩ := by
  have hnames : ∀ name ∈ ["html", "head", "body"], '\x00' ∉ name.toList ∧
      StartsWithLetter name := by decide
  exact ⟨(hnames tag htag).1, (hnames tag htag).2, hattrs⟩

namespace Sound

variable {b : Construction} (h : b.Sound)
include h

theorem ensureHtml : Gives b.ensureHtml := by
  unfold Construction.ensureHtml
  cases hhtml : b.html with
  | some html => exact ⟨h, h.held (.inr (.inl hhtml))⟩
  | none =>
    have hgives := h.insertElement (.inl rfl) (sound_supplied (.head _) Attributes.sound_empty)
    refine ⟨hgives.1.congr rfl ?_, hgives.2⟩
    rintro x (hx | hx | hx)
    -- What was open is open still; only the new element is added below.
    · rcases List.mem_append.1 hx with hx | hx
      · exact .inl (.inl hx)
      · rw [List.mem_singleton.1 hx]
        exact .inr hgives.2
    · cases hx
      exact .inr hgives.2
    · exact .inl (.inr (.inr hx))

theorem ensureHead : Gives b.ensureHead := by
  unfold Construction.ensureHead
  cases hhead : b.head with
  | some head => exact ⟨h, h.held (.inr (.inr (.inl hhead)))⟩
  | none =>
    have hhtml := h.ensureHtml
    have hgives := hhtml.1.insertElement (.inr hhtml.2)
      (sound_supplied (.tail _ (.head _)) Attributes.sound_empty)
    refine ⟨hgives.1.congr rfl ?_, hgives.2⟩
    rintro x (hx | hx | hx | hx)
    · exact .inl (.inl hx)
    · exact .inl (.inr (.inl hx))
    · cases hx
      exact .inr hgives.2
    · exact .inl (.inr (.inr (.inr hx)))

theorem openBody {attrs : Attributes} (hattrs : attrs.Sound) : Gives (b.openBody attrs) := by
  have hhtml := h.ensureHtml
  have hgives := (hhtml.1.popUntil b.ensureHtml.2).insertElement (.inr hhtml.2)
    (sound_supplied (.tail _ (.tail _ (.head _))) hattrs)
  have hbody :
      Sound { (((b.ensureHtml.1.popUntil b.ensureHtml.2).insertElement b.ensureHtml.2
          "body" attrs).1) with
        body := some ((b.ensureHtml.1.popUntil b.ensureHtml.2).insertElement b.ensureHtml.2
          "body" attrs).2 } := by
    refine hgives.1.congr rfl ?_
    rintro x (hx | hx | hx | hx)
    · exact .inl (.inl hx)
    · exact .inl (.inr (.inl hx))
    · exact .inl (.inr (.inr (.inl hx)))
    · cases hx
      exact .inr hgives.2
  exact ⟨hbody.push hgives.2, hgives.2⟩

theorem ensureBody : Gives b.ensureBody := by
  unfold Construction.ensureBody
  cases hbody : b.body with
  | some body =>
    have helement := h.held (.inr (.inr (.inr hbody)))
    refine ⟨?_, ?_⟩
    · show Sound (if b.opened.contains body then b else b.push body)
      split
      · exact h
      · exact h.push helement
    · show Document.isElement (if b.opened.contains body then b else b.push body).document
        body = true
      split
      · exact helement
      · exact helement
  | none => exact h.openBody Attributes.sound_empty

/-! ## 5. Tokens -/

section startTag

variable {attrs : Attributes} (hattrs : attrs.Sound)
include hattrs

theorem startHtml : (b.startHtml attrs).Sound := by
  unfold Construction.startHtml
  cases hhtml : b.html with
  | some html => exact h
  | none =>
    have hgives := h.insertElement (.inl rfl) (sound_supplied (.head _) hattrs)
    have hlandmark : Sound { (b.insertElement Document.root "html" attrs).1 with
        html := some (b.insertElement Document.root "html" attrs).2 } := by
      refine hgives.1.congr rfl ?_
      rintro x (hx | hx | hx)
      · exact .inl (.inl hx)
      · cases hx
        exact .inr hgives.2
      · exact .inl (.inr (.inr hx))
    exact hlandmark.push hgives.2

theorem startHead : (b.startHead attrs).Sound := by
  have hhtml := h.ensureHtml
  show Sound (if b.ensureHtml.1.head.isNone && b.ensureHtml.1.body.isNone then _
    else b.ensureHtml.1)
  split
  · have hgives := hhtml.1.insertElement (.inr hhtml.2) (sound_supplied (.tail _ (.head _)) hattrs)
    have hlandmark : Sound { (b.ensureHtml.1.insertElement b.ensureHtml.2 "head" attrs).1 with
        head := some (b.ensureHtml.1.insertElement b.ensureHtml.2 "head" attrs).2 } := by
      refine hgives.1.congr rfl ?_
      rintro x (hx | hx | hx | hx)
      · exact .inl (.inl hx)
      · exact .inl (.inr (.inl hx))
      · cases hx
        exact .inr hgives.2
      · exact .inl (.inr (.inr (.inr hx)))
    exact hlandmark.push hgives.2
  · exact hhtml.1

theorem startBody : (b.startBody attrs).Sound := by
  unfold Construction.startBody
  split
  · exact (h.openBody hattrs).1
  · exact h

variable {tag : String} (htag : '\x00' ∉ tag.toList) (hletter : StartsWithLetter tag)
include htag hletter

theorem startInHead : (b.startInHead tag attrs).Sound := by
  have hhead := h.ensureHead
  have hgives := hhead.1.insertElement (.inr hhead.2) ⟨htag, hletter, hattrs⟩
  exact hgives.1.pushUnlessVoid tag hgives.2

theorem startInBody : (b.startInBody tag attrs).Sound := by
  have hclosed := (h.ensureBody.1.closeParagraph tag).closeGroup tag
  have hgives := hclosed.insertElement hclosed.currentNode ⟨htag, hletter, hattrs⟩
  exact hgives.1.pushUnlessVoid tag hgives.2

theorem startTag : (b.startTag tag attrs).Sound := by
  unfold Construction.startTag
  split
  · exact h.startHtml hattrs
  · split
    · exact h.startHead hattrs
    · split
      · exact h.startBody hattrs
      · split
        · exact h.startInHead hattrs htag hletter
        · exact h.startInBody hattrs htag hletter

end startTag

theorem endTag (tag : String) : (b.endTag tag).Sound := by
  unfold Construction.endTag
  split
  · exact h
  · split
    · exact h.congr rfl .inl
    · next id opened hdrop =>
      refine h.congr rfl fun hx => .inl (hx.imp_left fun hx => ?_)
      -- What stays open was open before.
      exact (List.dropWhile_suffix _).subset (hdrop ▸ List.mem_cons_of_mem id hx)

theorem insertText (data : String) : (b.insertText data).Sound := by
  unfold Construction.insertText
  split
  · split
    · exact h
    · exact h.ensureBody.1.insert (.inr h.ensureBody.2) fun e he => by cases he
  · exact h.insert h.currentNode fun e he => by cases he

/-- One token leaves a sound construction. -/
theorem step {token : Token} (htoken : token.Sound) : (b.step token).Sound := by
  cases token with
  | doctype name => exact h
  | startTag name selfClosing attributes =>
    exact h.startTag (Attributes.sound_ofList htoken.2.2) htoken.1 htoken.2.1
  | endTag name => exact h.endTag name
  | comment data => exact h.insert h.currentNode fun e he => by cases he
  | text data => exact h.insertText data
  | endOfFile => exact h

omit h in
theorem run {tokens : List Token} (htokens : ∀ token ∈ tokens, token.Sound) (h : b.Sound) :
    (b.run tokens).Sound := by
  induction tokens generalizing b with
  | nil => exact h
  | cons token tokens ih =>
    -- The end mark stops the run, and any other token is a step.
    have hrest := ih (fun t ht => htokens t (.tail _ ht)) (h.step (htokens token (.head _)))
    cases token with
    | endOfFile => exact h
    | _ => exact hrest

end Sound

end Construction

/-- **A document that is read from a text without U+0000 is well-formed**, its tags begin with
letters, and only the document node and elements have children. -/
theorem sound_parse {html : String} (h : '\x00' ∉ html.toList) : (parse html).Sound := by
  have htokens : ∀ token ∈ (lex html).tokens.toList, token.Sound := fun token ht =>
    tokens_sound h token (Array.mem_toList_iff.1 ht)
  exact (Construction.sound_new.run htokens).document

end Markup

end UniqueSelector
