import UniqueSelector.Proofs.Forests
import UniqueSelector.Proofs.Structure

/-!
# Rebuilding — nested markup gives the forest that it was written from

As long as every element may stand where it is written, a start tag closes nothing, an end tag
closes its own element only, and whatever comes goes below the innermost open element. So the tokens
of a forest plant it there, and at the end everything is open that was open before.
-/

namespace UniqueSelector

open Markup

/-! ## 1. Forests as tokens -/

def Leaf.token : Leaf → Token
  | text data => .text data
  | comment data => .comment data

instance (outer inner : String) : Decidable (Admits outer inner) :=
  inferInstanceAs (Decidable (_ ∧ _))

namespace Forest

/-- A void element has a start tag only. -/
def tokens : Forest → List Token
  | nil => []
  | element e selfClosing content rest =>
    .startTag e.tag selfClosing e.attrs.entries ::
      ((if e.tag ∈ voidElements then [] else content.tokens ++ [.endTag e.tag]) ++ rest.tokens)
  | leaf l rest => l.token :: rest.tokens

/-- The tags of the outermost elements. -/
def tags : Forest → List String
  | nil => []
  | element e _ _ rest => e.tag :: rest.tags
  | leaf _ rest => rest.tags

/-- No element is a landmark, void elements are empty, each element can hold the elements inside of
it, and names of attributes are distinct. -/
def Proper : Forest → Prop
  | nil => True
  | element e _ content rest =>
    e.tag ∉ landmarkTags ∧ (e.attrs.entries.map Attribute.name).Nodup ∧
      (e.tag ∈ voidElements → content = nil) ∧
      (∀ inner ∈ content.tags, Admits e.tag inner) ∧ content.Proper ∧ rest.Proper
  | leaf _ rest => rest.Proper

instance decidableProper : (F : Forest) → Decidable F.Proper
  | nil => inferInstanceAs (Decidable True)
  | element _ _ content rest =>
    have := content.decidableProper
    have := rest.decidableProper
    inferInstanceAs (Decidable (_ ∧ _ ∧ _ ∧ _ ∧ _ ∧ _))
  | leaf _ rest => rest.decidableProper

end Forest

/-! ## 2. Attributes -/

namespace Attributes

theorem insertInto_of_notMem {name value : String} {as : List Attribute}
    (h : name ∉ as.map Attribute.name) :
    insertInto name value as = (none, as ++ [⟨name, value⟩]) := by
  induction as with
  | nil => rfl
  | cons a as ih =>
    rw [List.map_cons, List.mem_cons, not_or] at h
    rw [insertInto, if_neg (Ne.symm h.1), ih h.2]
    rfl

theorem foldl_insert {as before : List Attribute} (h : ((before ++ as).map Attribute.name).Nodup) :
    as.foldl (fun (attrs : Attributes) a => (attrs.insert a.name a.value).2) ⟨before⟩ =
      ⟨before ++ as⟩ := by
  induction as generalizing before with
  | nil =>
    rw [List.append_nil]
    rfl
  | cons a as ih =>
    have hname : a.name ∉ before.map Attribute.name := by
      rw [List.map_append, List.nodup_append] at h
      exact fun hmem => h.2.2 a.name hmem a.name (.head _) rfl
    have hinsert : (insert ⟨before⟩ a.name a.value).2 = ⟨before ++ [a]⟩ := by
      rw [insert, insertInto_of_notMem hname]
    have hrest : ((before ++ [a] ++ as).map Attribute.name).Nodup := by simpa using h
    rw [List.foldl_cons, hinsert, ih hrest, List.append_assoc]
    rfl

/-- Distinct names stay in their order. -/
theorem ofList_entries {attrs : Attributes} (h : (attrs.entries.map Attribute.name).Nodup) :
    ofList attrs.entries = attrs :=
  @foldl_insert attrs.entries [] h

end Attributes

/-! ## 3. Tokens inside of the body -/

namespace Markup.Construction

/-- The body is open, and content goes into an element `outer` at or inside of it. -/
structure Within (b : Construction) (outer : String) : Prop where
  body : ∃ body ∈ b.opened, b.body = some body
  current : b.currentTag = some outer
  html : outer ≠ "html"
  head : outer ≠ "head"

namespace Within

variable {b : Construction} {outer : String} (h : b.Within outer)
include h

theorem ensureBody : b.ensureBody.1 = b := by
  obtain ⟨body, hmem, hbody⟩ := h.body
  rw [Construction.ensureBody, hbody]
  exact if_pos (List.contains_iff_mem.2 hmem)

theorem closeParagraph {tag : String} (hroom : Admits outer tag) : b.closeParagraph tag = b := by
  rw [Construction.closeParagraph, if_neg]
  rw [Bool.and_eq_true, currentTagIn_iff, h.current]
  rintro ⟨hends, x, hx, hcurrent⟩
  cases hcurrent
  exact hroom.1 (List.mem_singleton.1 hx) (List.contains_iff_mem.1 hends)

theorem closeGroup {tag : String} (hroom : Admits outer tag) : b.closeGroup tag = b := by
  rw [Construction.closeGroup]
  cases hfind : exclusiveGroups.find? (·.contains tag) with
  | none => rfl
  | some group =>
    show (if b.currentTagIn group then b.pop else b) = b
    rw [if_neg]
    rw [currentTagIn_iff, h.current]
    rintro ⟨x, hx, hcurrent⟩
    cases hcurrent
    have htag := List.find?_some (p := (List.contains · tag)) hfind
    exact hroom.2 group (List.mem_of_find?_eq_some hfind) hx (List.contains_iff_mem.1 htag)

/-- A start tag that has room closes nothing. -/
theorem startTag {tag : String} (htag : tag ∉ landmarkTags) (hroom : Admits outer tag)
    (attrs : Attributes) :
    b.startTag tag attrs =
      (b.insertElement b.currentNode tag attrs).1.pushUnlessVoid tag b.document.size := by
  simp only [landmarkTags, List.mem_cons, List.not_mem_nil, or_false, not_or] at htag
  obtain ⟨body, -, hbody⟩ := h.body
  rw [Construction.startTag, if_neg htag.1, if_neg htag.2.1, if_neg htag.2.2, if_neg, startInBody,
    h.ensureBody, h.closeParagraph hroom, h.closeGroup hroom]
  · rfl
  · rw [hbody]
    exact Bool.false_ne_true

theorem leaf (l : Leaf) :
    b.step l.token = { b with document := (b.document.add b.currentNode l.kind).1 } := by
  have hbefore : b.beforeBody = false := by
    rw [beforeBody, h.current]
    simp [h.html, h.head]
  cases l with
  | text data =>
    show b.insertText data = _
    rw [insertText, hbefore, if_neg Bool.false_ne_true]
    rfl
  | comment data => rfl

/-- Only what is open counts, and that has kept its kind. -/
theorem congr {b' : Construction} (hopened : b'.opened = b.opened) (hbody : b'.body = b.body)
    (hkinds : ∀ id < b.document.size, b'.document.kind? id = b.document.kind? id) :
    b'.Within outer where
  body := by
    rw [hopened, hbody]
    exact h.body
  current := by
    have hcurrent := h.current
    obtain ⟨id, hid, htag⟩ := Option.bind_eq_some_iff.1 hcurrent
    have hlt := Document.lt_size_of_isElement (isElement_of_tag? htag)
    rw [currentTag, hopened, hid]
    show b'.tag? id = some outer
    rw [tag?, Document.element?_congr_kind (hkinds id hlt)]
    exact htag
  html := h.html
  head := h.head

theorem add {p : NodeId} (kind : NodeKind) :
    Within { b with document := (b.document.add p kind).1 } outer :=
  h.congr rfl rfl fun id hid => by
    show (b.document.add p kind).1.kind? id = _
    rw [Document.kind?_add, if_neg (Nat.ne_of_lt hid)]

theorem plant (p : NodeId) (F : Forest) :
    Within { b with document := b.document.plant p F } outer :=
  h.congr rfl rfl fun _ hid => Document.kind?_plant F p hid

theorem push {id : NodeId} {tag : String} (htag : b.tag? id = some tag)
    (hplain : tag ∉ landmarkTags) :
    (b.push id).Within tag where
  body := by
    obtain ⟨body, hmem, hbody⟩ := h.body
    exact ⟨body, .tail _ hmem, hbody⟩
  current := htag
  html heq := hplain (heq ▸ .head _)
  head heq := hplain (heq ▸ .tail _ (.head _))

end Within

theorem run_cons {token : Token} (h : token ≠ .endOfFile) (b : Construction) (tokens : List Token) :
    b.run (token :: tokens) = run (b.step token) tokens := by
  cases token with
  | endOfFile => exact absurd rfl h
  | _ => rfl

/-- An end tag closes the innermost open element alone, if that has its name. -/
theorem endTag_push {b : Construction} {id : NodeId} {tag : String} (htag : b.tag? id = some tag)
    (hplain : tag ∉ landmarkTags) (hvoid : tag ∉ voidElements) : (b.push id).endTag tag = b := by
  simp only [landmarkTags, List.mem_cons, List.not_mem_nil, or_false, not_or] at hplain
  have hopened : (b.push id).opened.dropWhile (fun x => (b.push id).tag? x != some tag) =
      id :: b.opened := by
    show (id :: b.opened).dropWhile (fun x => b.tag? x != some tag) = _
    rw [List.dropWhile_cons_of_neg]
    simp [htag]
  rw [endTag, if_neg, hopened]
  · rfl
  · simp [hplain, hvoid]

/-- **The tokens of a forest plant it below the innermost open element**, and nothing
else happens. -/
theorem run_tokens (F : Forest) (hF : F.Proper) {b : Construction} {outer : String}
    (h : b.Within outer) (hroom : ∀ inner ∈ F.tags, Admits outer inner) (tokens : List Token) :
    b.run (F.tokens ++ tokens) = run { b with document := b.document.plant b.currentNode F }
      tokens := by
  induction F generalizing b outer tokens with
  | nil => rfl
  | leaf l rest ih =>
    have hmark : l.token ≠ .endOfFile := by cases l <;> exact Token.noConfusion
    rw [Forest.tokens, List.cons_append, run_cons hmark, h.leaf, ih hF (h.add l.kind) hroom]
    rfl
  | element e flag content rest ihContent ihRest =>
    obtain ⟨hplain, hnames, hvoid, hinner, hcontent, hrest⟩ := hF
    have hadmits := hroom e.tag (.head _)
    have hroom' : ∀ inner ∈ rest.tags, Admits outer inner :=
      fun inner hmem => hroom inner (.tail _ hmem)
    -- The new element, and what is open if it is not void.
    let added : Construction := { b with document := (b.document.add b.currentNode (.element e)).1 }
    have hadded : added.Within outer := h.add (.element e)
    have hstep : b.step (.startTag e.tag flag e.attrs.entries) =
        added.pushUnlessVoid e.tag b.document.size := by
      rw [step, Attributes.ofList_entries hnames, h.startTag hplain hadmits]
      rfl
    rw [Forest.tokens, List.cons_append, List.append_assoc, run_cons Token.noConfusion, hstep,
      pushUnlessVoid]
    by_cases htag : e.tag ∈ voidElements
    · rw [if_pos htag, if_pos (List.contains_iff_mem.2 htag), List.nil_append,
        ihRest hrest hadded hroom', hvoid htag]
      rfl
    · have hnew : added.tag? b.document.size = some e.tag :=
        tag?_insertElement b b.currentNode e.tag e.attrs
      let filled : Construction :=
        { added with document := added.document.plant b.document.size content }
      have hfilled : filled.Within outer := hadded.plant b.document.size content
      have hkept : filled.tag? b.document.size = some e.tag := by
        rw [tag?, Document.element?_congr_kind
          (Document.kind?_plant content _ (Document.size_lt_size_add _ _ _))]
        exact hnew
      have hopen : (added.push b.document.size).Within e.tag := hadded.push hnew hplain
      rw [if_neg htag, if_neg (fun hmem => htag (List.contains_iff_mem.1 hmem)), List.append_assoc,
        ihContent hcontent hopen hinner]
      show run ((filled.push b.document.size).endTag e.tag) (rest.tokens ++ tokens) = _
      rw [endTag_push hkept hplain htag, ihRest hrest hfilled hroom']
      rfl

end Markup.Construction

/-! ## 4. Whole documents -/

namespace Markup

/-- The body that is found in the document is the one that was made. -/
theorem Construction.Orderly.body_eq {b : Construction} (h : b.Orderly) :
    b.document.body = b.body := by
  have htag : ∀ id tag, b.tag? id = some tag →
      ((b.document.element? id).map fun e =>
        sameLetters e.tag "body" || sameLetters e.tag "frameset").getD false =
        (sameLetters tag "body" || sameLetters tag "frameset") := by
    intro id tag hid
    obtain ⟨e, he, rfl⟩ := exists_element_of_tag? hid
    rw [he]
    rfl
  rw [Document.body, Document.documentElement, h.top]
  cases hhtml : b.html with
  | none => exact (h.furnished.bare hhtml).2.2.symm
  | some html =>
    show (b.document.elementChildren html).find? _ = _
    rw [h.inner html hhtml, List.find?_append]
    have hhead : b.head.toList.find? (fun id => ((b.document.element? id).map fun e =>
        sameLetters e.tag "body" || sameLetters e.tag "frameset").getD false) = none := by
      rw [List.find?_eq_none]
      intro head hmem
      rw [htag head "head" (h.furnished.tag?_head.2 (Option.mem_toList.1 hmem))]
      decide
    rw [hhead, Option.none_or]
    cases hbody : b.body with
    | none => rfl
    | some body =>
      rw [Option.toList_some, List.find?_cons_of_pos]
      rw [htag body "body" (h.furnished.tag?_body.2 hbody)]
      decide

/-- A document with an empty body that is open. -/
def bodyOpened (htmlAttrs bodyAttrs : List Attribute) : Construction where
  document := ((Document.empty.add Document.root (.element ⟨"html", .ofList htmlAttrs⟩)).1.add 1
    (.element ⟨"body", .ofList bodyAttrs⟩)).1
  opened := [2, 1]
  html := some 1
  body := some 2

theorem within_bodyOpened (htmlAttrs bodyAttrs : List Attribute) :
    (bodyOpened htmlAttrs bodyAttrs).Within "body" where
  body := ⟨2, .head _, rfl⟩
  current := rfl
  html := by decide
  head := by decide

/-- Everything that is no landmark may stand in the body. -/
theorem admits_body (inner : String) : Admits "body" inner := by
  have hgroup : ∀ group ∈ exclusiveGroups, "body" ∉ group := by decide
  exact ⟨fun heq => absurd heq (by decide),
    fun group hmem hbody => absurd hbody (hgroup group hmem)⟩

/-- **Properly nested markup is rebuilt**: the body holds the forest that was written, nothing more,
and its nodes have one number after another in tree order. -/
theorem construct_forest {F : Forest} (hF : F.Proper) (htmlCloses bodyCloses : Bool)
    (htmlAttrs bodyAttrs : List Attribute) :
    let t :=
      (construct (.startTag "html" htmlCloses htmlAttrs :: .startTag "body" bodyCloses bodyAttrs ::
      (F.tokens ++ [.endOfFile]))).document
    t.body = some 2 ∧ t.Holds (t.children 2) F ∧ t.descendants 2 = List.range' 3 F.size ∧
      t.size = 3 + F.size := by
  intro t
  let trunk := bodyOpened htmlAttrs bodyAttrs
  have hsize : trunk.document.size = 3 := rfl
  have hopened : 2 < trunk.document.size := by rw [hsize]; decide
  have hrun : construct (.startTag "html" htmlCloses htmlAttrs ::
      .startTag "body" bodyCloses bodyAttrs :: (F.tokens ++ [.endOfFile])) =
      { trunk with document := trunk.document.plant 2 F } :=
    Construction.run_tokens F hF (within_bodyOpened htmlAttrs bodyAttrs)
      (fun inner _ => admits_body inner) [.endOfFile]
  have horderly := Construction.orderly_new.run (.startTag "html" htmlCloses htmlAttrs ::
    .startTag "body" bodyCloses bodyAttrs :: (F.tokens ++ [.endOfFile]))
  change (construct _).Orderly at horderly
  have ht : t = trunk.document.plant 2 F := congrArg Construction.document hrun
  have hstands : t.Stands 3 F := ht ▸ Document.stands_plant F hopened
  have hchildren : t.children 2 = F.places 3 := by
    rw [ht, Document.children_plant F hopened hopened, if_pos rfl]
    rfl
  refine ⟨?_, hchildren ▸ hstands.holds, ?_, ?_⟩
  · rw [horderly.body_eq, hrun]
    rfl
  · rw [horderly.nested.wellFormed.descendants_eq, hchildren,
      hstands.descendants horderly.nested.wellFormed]
  · rw [ht, Document.size_plant, hsize]

/-- A list in an item of a list, and texts side by side. -/
theorem construct_forest_list :
    let F : Forest := .element ⟨"ul", .empty⟩ false
      (.element ⟨"li", ⟨[⟨"id", "x"⟩, ⟨"class", "y"⟩]⟩⟩ false
        (.leaf (.text "a") <| .leaf (.text "b") <| .element ⟨"br", .empty⟩ true .nil <|
          .element ⟨"ul", .empty⟩ false (.element ⟨"li", .empty⟩ false .nil .nil) .nil) <|
        .leaf (.comment "c") <| .element ⟨"li", .empty⟩ true .nil .nil)
      (.leaf (.text "d") .nil)
    let t := (construct (.startTag "html" false [⟨"lang", "en"⟩] :: .startTag "body" false [] ::
      (F.tokens ++ [.endOfFile]))).document
    F.Proper ∧
      t.body = some 2 ∧ t.Holds (t.children 2) F ∧ t.descendants 2 = List.range' 3 F.size ∧
      t.size = 3 + F.size := by
  intro F t
  have hF : F.Proper := by decide
  exact ⟨hF, construct_forest hF false false [⟨"lang", "en"⟩] []⟩

end Markup

end UniqueSelector
