import UniqueSelector.Proofs.Nesting

/-!
# Structure — the shape of every document

Every building block and every token leaves a construction orderly: a head is only supplied in front
of the body, and what begins is put where the closing left room for it. So the landmarks come in
their order at the top, whatever the tokens are, and nothing is inside of what it would have ended.
-/

namespace UniqueSelector

open Markup

namespace Markup

namespace Construction

namespace Orderly

variable {b : Construction} (h : b.Orderly)
include h

/-! ## 1. Landmarks -/

theorem nested_insertLandmark {p : NodeId} (hp : p < b.document.size)
    (hsolid : ∀ outer, b.tag? p = some outer → outer ∉ voidElements) {tag : String}
    (htag : tag ∈ landmarkTags) {attrs : Attributes}
    (hattrs : (attrs.entries.map Attribute.name).Nodup) :
    (b.document.add p (.element ⟨tag, attrs⟩)).1.Nested := by
  refine h.nested.add hp ?_ fun outer houter => ⟨hsolid outer houter, ?_⟩
  · intro e he
    cases he
    exact hattrs
  · intro e he
    cases he
    exact admits_landmark htag outer

theorem insertHtml (hnone : b.html = none) {attrs : Attributes}
    (hattrs : (attrs.entries.map Attribute.name).Nodup) :
    Orderly { (b.insertElement Document.root "html" attrs).1 with
      html := some b.document.size, opened := [b.document.size] } where
  furnished := h.furnished.insertHtml hnone attrs
  nested := by
    refine h.nested_insertLandmark h.furnished.rooted.nonempty
      (fun outer houter => ?_) (.head _) hattrs
    exact absurd rfl (h.furnished.rooted.ne_root (isElement_of_tag? houter))
  top := by
    refine (Document.elementChildren_add h.nested.wellFormed h.furnished.rooted.nonempty _
      Document.root).trans ?_
    rw [if_pos rfl, h.top, hnone]
    rfl
  inner html hhtml := by
    -- The new element has no children yet.
    cases hhtml
    refine (Document.elementChildren_add h.nested.wellFormed h.furnished.rooted.nonempty _
      b.document.size).trans ?_
    rw [if_neg (Nat.ne_of_gt h.furnished.rooted.nonempty), Document.elementChildren,
      Document.children_eq_nil (Nat.le_refl _)]
    show [] = b.head.toList ++ b.body.toList
    rw [(h.furnished.bare hnone).2.1, (h.furnished.bare hnone).2.2]
    rfl
  stacked := .singleton (tag?_insertElement b Document.root "html" attrs) (by decide)

section html

variable {html : NodeId} (hhtml : b.html = some html)
include hhtml

/-- What is below the document node stays if something goes below `html`. -/
theorem top_add (kind : NodeKind) :
    (b.document.add html kind).1.elementChildren Document.root = b.html.toList := by
  have hhtmlElement := h.furnished.html_element hhtml
  rw [Document.elementChildren_add h.nested.wellFormed (Document.lt_size_of_isElement hhtmlElement),
    if_neg (Ne.symm (h.furnished.rooted.ne_root hhtmlElement)), h.top]

/-- What goes below `html` is the last of the elements there. -/
theorem inner_add (e : Element) :
    (b.document.add html (.element e)).1.elementChildren html =
      b.head.toList ++ b.body.toList ++ [b.document.size] := by
  rw [Document.elementChildren_add h.nested.wellFormed
    (Document.lt_size_of_isElement (h.furnished.html_element hhtml)), if_pos rfl,
    h.inner html hhtml]
  rfl

theorem html_solid {outer : String} (houter : b.tag? html = some outer) : outer ∉ voidElements := by
  rw [h.furnished.tag?_html.2 hhtml] at houter
  cases houter
  decide

/-- A head that comes before the body is the first of the two. -/
theorem insertHead (hhead : b.head = none) (hbody : b.body = none) {attrs : Attributes}
    (hattrs : (attrs.entries.map Attribute.name).Nodup) :
    Orderly { (b.insertElement html "head" attrs).1 with head := some b.document.size } where
  furnished := h.furnished.insertHead hhtml hhead attrs
  nested := h.nested_insertLandmark (Document.lt_size_of_isElement (h.furnished.html_element hhtml))
    (fun _ => h.html_solid hhtml) (.tail _ (.head _)) hattrs
  top := h.top_add hhtml _
  inner p hp := by
    cases Option.some.inj (hhtml.symm.trans hp)
    refine (h.inner_add hhtml _).trans ?_
    rw [hhead, hbody]
    show _ = [b.document.size] ++ b.body.toList
    rw [hbody]
    rfl
  stacked := h.stacked.congr fun id hid => h.tag?_of_mem_opened rfl hid

theorem insertBody (hbody : b.body = none) {attrs : Attributes}
    (hattrs : (attrs.entries.map Attribute.name).Nodup) :
    Orderly { (b.insertElement html "body" attrs).1 with
      body := some b.document.size, opened := [b.document.size, html] } where
  furnished := h.furnished.insertBody hhtml hbody attrs
  nested := h.nested_insertLandmark (Document.lt_size_of_isElement (h.furnished.html_element hhtml))
    (fun _ => h.html_solid hhtml) (.tail _ (.tail _ (.head _))) hattrs
  top := h.top_add hhtml _
  inner p hp := by
    cases Option.some.inj (hhtml.symm.trans hp)
    refine (h.inner_add hhtml _).trans ?_
    rw [hbody, Option.toList_none, List.append_nil]
    rfl
  stacked := by
    have htag := h.furnished.tag?_html.2 hhtml
    have hlt := Document.lt_size_of_isElement (isElement_of_tag? htag)
    refine .cons (.singleton (?_ : _ = some "html") (by decide))
      (tag?_insertElement b html "body" attrs) (by decide) ?_
    · refine (tag?_add (b := b) rfl html).trans ?_
      rw [if_neg (Nat.ne_of_lt hlt)]
      exact htag
    · exact fun outer _ x _ => admits_landmark (.tail _ (.tail _ (.head _))) x

end html

theorem ensureHtml : b.ensureHtml.1.Orderly := by
  unfold Construction.ensureHtml
  cases hhtml : b.html with
  | some html => exact h
  | none =>
    show Orderly { (b.insertElement Document.root "html" .empty).1 with
      html := some b.document.size, opened := b.opened ++ [b.document.size] }
    rw [(h.furnished.bare hhtml).1, List.nil_append]
    exact h.insertHtml hhtml List.nodup_nil

theorem ensureHead (hbody : b.body = none) : b.ensureHead.1.Orderly := by
  unfold Construction.ensureHead
  cases hhead : b.head with
  | some head => exact h
  | none =>
    obtain ⟨-, hhtml, hsameHead, hsameBody⟩ := h.furnished.ensureHtml
    exact h.ensureHtml.insertHead hhtml (hsameHead.trans hhead) (hsameBody.trans hbody)
      List.nodup_nil

theorem openBody (hnone : b.body = none) {attrs : Attributes}
    (hattrs : (attrs.entries.map Attribute.name).Nodup) :
    (b.openBody attrs).1.Orderly := by
  obtain ⟨hfurnished, hhtml, -, hsame⟩ := h.furnished.ensureHtml
  have hbody := hsame.trans hnone
  show Orderly { (b.ensureHtml.1.insertElement b.ensureHtml.2 "body" attrs).1 with
    body := some b.ensureHtml.1.document.size
    opened := b.ensureHtml.1.document.size :: (b.ensureHtml.1.popUntil b.ensureHtml.2).opened }
  rw [hfurnished.popUntil_opened hhtml hbody]
  exact h.ensureHtml.insertBody hhtml hbody hattrs

theorem ensureBody : b.ensureBody.1.Orderly := by
  unfold Construction.ensureBody
  cases hbody : b.body with
  | some body =>
    dsimp only
    rw [if_pos (h.furnished.contains_body hbody)]
    exact h
  | none => exact h.openBody hbody List.nodup_nil

/-! ## 2. What is closed by what begins -/

theorem pop (hfurnished : b.pop.Furnished fun _ => True) : b.pop.Orderly :=
  h.close hfurnished rfl rfl rfl rfl (List.tail_suffix b.opened)

theorem closeParagraph (tag : String) : (b.closeParagraph tag).Orderly := by
  have hfurnished := (h.furnished.closeParagraph tag).1
  unfold Construction.closeParagraph at hfurnished ⊢
  split
  · next hclose =>
    rw [if_pos hclose] at hfurnished
    exact h.pop hfurnished
  · exact h

theorem closeGroup (tag : String) : (b.closeGroup tag).Orderly := by
  have hfurnished := (h.furnished.closeGroup tag).1
  unfold Construction.closeGroup at hfurnished ⊢
  cases hgroup : exclusiveGroups.find? (·.contains tag) with
  | none => exact h
  | some group =>
    simp only [hgroup] at hfurnished ⊢
    split
    · next hclose =>
      rw [if_pos hclose] at hfurnished
      exact h.pop hfurnished
    · exact h

/-- What is closed was held by what is open then. -/
theorem admits_of_pop {x y : String} (hy : b.currentTag = some y) (hx : b.pop.currentTag = some x) :
    Admits x y := by
  have hchain := h.stacked.chain
  unfold currentTag at hx hy
  change b.opened.tail.head?.bind b.tag? = some x at hx
  cases hopened : b.opened with
  | nil =>
    rw [hopened] at hy
    cases hy
  | cons id opened =>
    rw [hopened] at hx hy hchain
    cases opened with
    | nil => cases hx
    | cons outer rest => exact (List.isChain_cons_cons.1 hchain).1 x y hx hy

theorem notMem_paragraphEnders {tag : String}
    (hcurrent : (b.closeParagraph tag).currentTag = some "p") :
    tag ∉ paragraphEnders := by
  intro htag
  unfold Construction.closeParagraph at hcurrent
  split at hcurrent
  · next hclose =>
    -- What holds a paragraph is none.
    rw [Bool.and_eq_true, currentTagIn_iff] at hclose
    obtain ⟨-, y, hy, hlast⟩ := hclose
    rw [List.mem_singleton.1 hy] at hlast
    exact (h.admits_of_pop hlast hcurrent).1 rfl (by decide)
  · next hclose =>
    rw [Bool.and_eq_true, currentTagIn_iff] at hclose
    exact hclose ⟨List.contains_iff_mem.2 htag, "p", .head _, hcurrent⟩

theorem notMem_group {tag x : String} (hcurrent : (b.closeGroup tag).currentTag = some x)
    {group : List String} (hgroup : group ∈ exclusiveGroups) (hx : x ∈ group) : tag ∉ group := by
  have hdisjoint : ∀ group ∈ exclusiveGroups, ∀ other ∈ exclusiveGroups,
      ∀ tag ∈ group, tag ∈ other → other = group := by decide
  intro htag
  unfold Construction.closeGroup at hcurrent
  cases hfind : exclusiveGroups.find? (·.contains tag) with
  | none => exact List.find?_eq_none.1 hfind group hgroup (List.contains_iff_mem.2 htag)
  | some found =>
    have hmem := List.contains_iff_mem.1 (List.find?_some (p := (List.contains · tag)) hfind)
    cases hdisjoint group hgroup found (List.mem_of_find?_eq_some hfind) tag htag hmem
    simp only [hfind] at hcurrent
    split at hcurrent
    · next hclose =>
      -- What holds an item of the group is none.
      obtain ⟨y, hy, hlast⟩ := currentTagIn_iff.1 hclose
      exact (h.admits_of_pop hlast hcurrent).2 group hgroup hx hy
    · next hclose => exact hclose (currentTagIn_iff.2 ⟨x, hx, hcurrent⟩)

/-- **What is open after the closing can hold what begins.** -/
theorem admits_currentTag {tag x : String}
    (hcurrent : ((b.closeParagraph tag).closeGroup tag).currentTag = some x) : Admits x tag := by
  refine ⟨?_, fun group hgroup => (h.closeParagraph tag).notMem_group hcurrent hgroup⟩
  rintro rfl htag
  -- What ends a paragraph is in none of the groups.
  have hapart : ∀ tag ∈ paragraphEnders, exclusiveGroups.find? (·.contains tag) = none := by decide
  unfold Construction.closeGroup at hcurrent
  rw [hapart tag htag] at hcurrent
  exact h.notMem_paragraphEnders hcurrent htag

/-! ## 3. Tokens -/

theorem startHtml {attrs : Attributes} (hattrs : (attrs.entries.map Attribute.name).Nodup) :
    (b.startHtml attrs).Orderly := by
  unfold Construction.startHtml
  cases hhtml : b.html with
  | some html => exact h
  | none =>
    show Orderly { (b.insertElement Document.root "html" attrs).1 with
      html := some b.document.size, opened := b.document.size :: b.opened }
    rw [(h.furnished.bare hhtml).1]
    exact h.insertHtml hhtml hattrs

theorem startHead {attrs : Attributes} (hattrs : (attrs.entries.map Attribute.name).Nodup) :
    (b.startHead attrs).Orderly := by
  obtain ⟨-, hhtml, -, -⟩ := h.furnished.ensureHtml
  show Orderly (if b.ensureHtml.1.head.isNone && b.ensureHtml.1.body.isNone then _
    else b.ensureHtml.1)
  split
  · next hnone =>
    rw [Bool.and_eq_true, Option.isNone_iff_eq_none, Option.isNone_iff_eq_none] at hnone
    have hhead := h.ensureHtml.insertHead hhtml hnone.1 hnone.2 hattrs
    have htag := hhead.furnished.tag?_head.2 rfl
    exact hhead.push hhtml (hhead.furnished.html_ne htag (by decide)) htag (by decide) fun x _ =>
      admits_landmark (.tail _ (.head _)) x
  · exact h.ensureHtml

theorem startBody {attrs : Attributes} (hattrs : (attrs.entries.map Attribute.name).Nodup) :
    (b.startBody attrs).Orderly := by
  unfold Construction.startBody
  split
  · next hnone => exact h.openBody (Option.isNone_iff_eq_none.1 hnone) hattrs
  · exact h

section plain

variable {tag : String} (htag : tag ∉ landmarkTags) {attrs : Attributes}
  (hattrs : (attrs.entries.map Attribute.name).Nodup)
include htag hattrs

/-- A plain element goes into what can hold it, and is opened there if the innermost open element
can hold it. -/
theorem insertPlain {html p : NodeId} (hhtml : b.html = some html)
    (hp : b.document.isElement p = true) (hne : b.html ≠ some p)
    (hroom : ∀ outer, b.tag? p = some outer → outer ∉ voidElements ∧ Admits outer tag)
    (hcurrent : ∀ outer, b.currentTag = some outer → Admits outer tag) :
    (((b.insertElement p tag attrs).1).pushUnlessVoid tag
        (b.insertElement p tag attrs).2).Orderly := by
  have hinsert : (b.insertElement p tag attrs).1.Orderly := by
    apply h.insert (Document.lt_size_of_isElement hp)
    · intro e he
      cases he
      exact ⟨htag, h.furnished.rooted.ne_root hp, hne, hattrs⟩
    · intro outer houter
      refine ⟨(hroom outer houter).1, fun e he => ?_⟩
      cases he
      exact (hroom outer houter).2
  have hnew := tag?_insertElement b p tag attrs
  refine hinsert.pushUnlessVoid hhtml
    (hinsert.furnished.html_ne hnew fun heq => htag (heq ▸ .head _)) hnew ?_
  -- The innermost open element has the tag that it had.
  intro outer houter
  obtain ⟨id, hid, hsame⟩ := Option.bind_eq_some_iff.1 houter
  have hmem : id ∈ b.opened := List.mem_of_head? hid
  have hold : (b.insertElement p tag attrs).1.tag? id = b.tag? id := h.tag?_of_mem_opened rfl hmem
  rw [hold] at hsame
  exact hcurrent outer (Option.bind_eq_some_iff.2 ⟨id, hid, hsame⟩)

theorem startInHead (hbody : b.body = none) (hhead : tag ∈ headElements) :
    (b.startInHead tag attrs).Orderly := by
  have hsome := h.furnished.ensureHead.2
  have horderly := h.ensureHead hbody
  have htagged := horderly.furnished.tag?_head.2 hsome
  cases hhtml : b.ensureHead.1.html with
  | none =>
    rw [(horderly.furnished.bare hhtml).2.1] at hsome
    cases hsome
  | some html =>
    refine horderly.insertPlain (p := b.ensureHead.2) htag hattrs hhtml (isElement_of_tag? htagged)
      (horderly.furnished.html_ne htagged (by decide)) ?_ fun outer _ =>
        admits_headElement hhead outer
    intro outer houter
    rw [htagged] at houter
    cases houter
    exact ⟨by decide, admits_headElement hhead _⟩

theorem startInBody : (b.startInBody tag attrs).Orderly := by
  have hsome := h.furnished.ensureBody.2
  have horderly := (h.ensureBody.closeParagraph tag).closeGroup tag
  have hsame := (h.ensureBody.furnished.closeParagraph tag).2.1
  have hsame' := ((h.ensureBody.closeParagraph tag).furnished.closeGroup tag).2.1
  have hbody := hsame'.trans (hsame.trans hsome)
  have hinside := horderly.furnished.currentNode_inside hbody
  have hadmits : ∀ outer, ((b.ensureBody.1.closeParagraph tag).closeGroup tag).currentTag =
      some outer → Admits outer tag := fun outer => h.ensureBody.admits_currentTag
  cases hhtml : ((b.ensureBody.1.closeParagraph tag).closeGroup tag).html with
  | none =>
    rw [(horderly.furnished.bare hhtml).2.2] at hbody
    cases hbody
  | some html =>
    refine horderly.insertPlain htag hattrs hhtml hinside.1 hinside.2
      (fun outer houter => ?_) hadmits
    exact ⟨horderly.currentNode_solid houter, hadmits outer (horderly.currentTag_eq houter)⟩

end plain

theorem startTag (tag : String) {attrs : Attributes}
    (hattrs : (attrs.entries.map Attribute.name).Nodup) :
    (b.startTag tag attrs).Orderly := by
  unfold Construction.startTag
  split
  · exact h.startHtml hattrs
  · next hhtml =>
    split
    · exact h.startHead hattrs
    · next hhead =>
      split
      · exact h.startBody hattrs
      · next hbody =>
        have htag : tag ∉ landmarkTags := by simp [landmarkTags, hhtml, hhead, hbody]
        split
        · next hbefore =>
          rw [Bool.and_eq_true, Option.isNone_iff_eq_none] at hbefore
          exact h.startInHead htag hattrs hbefore.1 (List.contains_iff_mem.1 hbefore.2)
        · exact h.startInBody htag hattrs

theorem endTag (tag : String) : (b.endTag tag).Orderly := by
  have hfurnished := h.furnished.endTag tag
  unfold Construction.endTag at hfurnished ⊢
  split
  · exact h
  · next hplain =>
    rw [if_neg hplain] at hfurnished
    cases hdrop : b.opened.dropWhile (fun id => b.tag? id != some tag) with
    | nil =>
      simp only [hdrop] at hfurnished ⊢
      exact h.close hfurnished rfl rfl rfl rfl (List.suffix_refl _)
    | cons id opened =>
      simp only [hdrop] at hfurnished ⊢
      have hsuffix : id :: opened <:+ b.opened := hdrop ▸ List.dropWhile_suffix _
      exact h.close hfurnished rfl rfl rfl rfl ((List.suffix_cons id opened).trans hsuffix)

theorem insertText (data : String) : (b.insertText data).Orderly := by
  unfold Construction.insertText
  split
  · split
    · exact h
    · have htag := h.ensureBody.furnished.tag?_body.2 h.furnished.ensureBody.2
      refine h.ensureBody.insertData (Document.lt_size_of_isElement (isElement_of_tag? htag)) ?_ rfl
      intro outer houter
      rw [htag] at houter
      cases houter
      decide
  · exact h.insertData h.furnished.currentNode_lt (fun _ => h.currentNode_solid) rfl

theorem step (token : Token) : (b.step token).Orderly := by
  cases token with
  | doctype name => exact h
  | startTag name selfClosing attributes =>
    exact h.startTag name (Attributes.nodup_ofList attributes)
  | endTag name => exact h.endTag name
  | comment data => exact h.insertData h.furnished.currentNode_lt (fun _ => h.currentNode_solid) rfl
  | text data => exact h.insertText data
  | endOfFile => exact h

omit h in
/-- **Whatever the tokens are**, everything stays in its place. -/
theorem run (h : b.Orderly) (tokens : List Token) : (b.run tokens).Orderly := by
  induction tokens generalizing b with
  | nil => exact h
  | cons token tokens ih =>
    -- The end mark stops the run, and any other token is a step.
    have hrest := ih (h.step token)
    cases token with
    | endOfFile => exact h
    | _ => exact hrest

end Orderly

end Construction

end Markup

/-! ## 4. Documents from tokens -/

/-- What stands where in a document: `html` alone at the top, `head` before `body` below it,
and these three nowhere else; void elements are empty, and nothing is inside of what it would
have ended. -/
structure Document.Structured (t : Document) : Prop where
  top : ((t.elementChildren root).map t.tag?).Sublist [some "html"]
  inner : ∀ html ∈ t.elementChildren root,
    ((t.elementChildren html).map t.tag?).Sublist [some "head", some "body"]
  elsewhere : ∀ p, p ≠ root → p ∉ t.elementChildren root →
    ∀ c ∈ t.elementChildren p, ∀ tag ∈ landmarkTags, t.tag? c ≠ some tag
  void : ∀ p, ∀ tag ∈ voidElements, t.tag? p = some tag → t.children p = []
  paragraph : ∀ p, t.tag? p = some "p" →
    ∀ c ∈ t.elementChildren p, ∀ tag ∈ paragraphEnders, t.tag? c ≠ some tag
  exclusive : ∀ group ∈ exclusiveGroups, ∀ p, ∀ outer ∈ group, t.tag? p = some outer →
    ∀ c ∈ t.elementChildren p, ∀ inner ∈ group, t.tag? c ≠ some inner

theorem Document.Nested.admits {t : Document} (h : t.Nested) {p c : NodeId}
    (hc : c ∈ t.elementChildren p) {outer inner : String} (houter : t.tag? p = some outer)
    (hinner : t.tag? c = some inner) : Admits outer inner :=
  h.kin (h.wellFormed.mem_children.1 (List.mem_filter.1 hc).1) houter hinner

namespace Markup

namespace Construction

/-- A landmark is listed if it is there. -/
theorem Furnished.map_toList {b : Construction} {plain : String → Prop} (h : b.Furnished plain)
    {tag : String} (htag : tag ∈ landmarkTags) :
    ((b.landmark? tag).toList.map b.document.tag?).Sublist [some tag] := by
  cases hlandmark : b.landmark? tag with
  | none => exact List.nil_sublist _
  | some id =>
    show [b.tag? id].Sublist [some tag]
    rw [(h.tagged tag htag id).2 hlandmark]

theorem Orderly.structured {b : Construction} (h : b.Orderly) : b.document.Structured where
  top := by
    rw [h.top]
    exact h.furnished.map_toList (.head _)
  inner html hmem := by
    rw [h.top, Option.mem_toList] at hmem
    rw [h.inner html hmem, List.map_append]
    exact (h.furnished.map_toList (.tail _ (.head _))).append
      (h.furnished.map_toList (.tail _ (.tail _ (.head _))))
  elsewhere p hp hother c hc tag htag heq := by
    have hlandmark := (h.furnished.tagged tag htag c).1 heq
    have hparent := h.nested.wellFormed.mem_children.1 (List.mem_filter.1 hc).1
    simp only [landmarkTags, List.mem_cons, List.not_mem_nil, or_false] at htag
    -- The document node lists `html`, which lists the other two, and a node has one parent.
    have hinside : ∀ outer, c ∈ b.document.elementChildren outer → outer = p := by
      intro outer houter
      have hparent' := h.nested.wellFormed.mem_children.1 (List.mem_filter.1 houter).1
      exact Option.some.inj (hparent'.symm.trans hparent)
    have hbelow : c ∈ b.head.toList ++ b.body.toList → False := by
      intro hmem
      cases hhtml : b.html with
      | none =>
        rw [(h.furnished.bare hhtml).2.1, (h.furnished.bare hhtml).2.2] at hmem
        cases hmem
      | some html =>
        rw [← h.inner html hhtml] at hmem
        apply hother
        rw [← hinside html hmem, h.top, hhtml]
        exact List.mem_singleton_self html
    rcases htag with rfl | rfl | rfl
    · refine hp (hinside Document.root ?_).symm
      rw [h.top, Option.mem_toList]
      exact hlandmark
    · exact hbelow (List.mem_append_left _ (Option.mem_toList.2 hlandmark))
    · exact hbelow (List.mem_append_right _ (Option.mem_toList.2 hlandmark))
  void p tag hvoid htag := h.nested.void htag hvoid
  paragraph p hp c hc tag htag heq := (h.nested.admits hc hp heq).1 rfl htag
  exclusive group hgroup p outer houter hp c hc inner hinner heq :=
    (h.nested.admits hc hp heq).2 group hgroup houter hinner

end Construction

/-- **Whatever the tokens are, everything in the document is in its place.** -/
theorem construct_structured (tokens : List Token) : (construct tokens).document.Structured :=
  (Construction.orderly_new.run tokens).structured

end Markup

end UniqueSelector
