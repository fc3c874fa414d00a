import UniqueSelector.Proofs.Structure
import UniqueSelector.Proofs.TreeOrder

/-!
# Edges — new nodes come last

As long as there is a body, what is open is a way along last children from `html` inward, and
whatever comes is put at its lower end. A node there comes last in tree order below everything on
the way. So below the body the numbers of the nodes ascend.
-/

namespace UniqueSelector

open Markup

/-! ## 1. A node at the end of a way along last children -/

namespace Document

/-- Each node is the last child of the next one. -/
def LastChildren (t : Document) (ids : List NodeId) : Prop :=
  ids.IsChain fun inner outer => (t.children outer).getLast? = some inner

namespace WellFormed

variable {t : Document} (h : t.WellFormed)

section add

variable {p : NodeId} {kind : NodeKind} (hp : p < t.size)
include h hp

/-- A new node changes nothing below those that are neither its parent nor above that. -/
theorem descendants_add_aside {c : NodeId} (hc : ¬t.AtOrAbove c p) :
    (t.add p kind).1.descendants c = t.descendants c := by
  have hbelow : ∀ n c, ¬t.AtOrAbove c p → (t.add p kind).1.below n c = t.below n c := by
    intro n
    induction n with
    | zero => exact fun _ _ => rfl
    | succ n ih =>
      intro c hc
      have hne : c ≠ p := fun heq => hc (.inl heq)
      rw [below, below, children_add hp, if_neg hne]
      apply List.flatMap_congr
      intro d hd
      rw [ih d fun hd' => hc (.inr (.of_parent (h.mem_children.1 hd) hd'))]
  calc (t.add p kind).1.descendants c
    _ = (t.add p kind).1.below (t.size + 1) c := by rw [← size_add t p kind]; rfl
    _ = t.below (t.size + 1) c := hbelow _ c hc
    _ = t.descendants c := (h.descendants_eq c).symm

variable (h' : (t.add p kind).1.WellFormed)
include h'

omit h in
theorem descendants_add_new : (t.add p kind).1.descendants t.size = [] := by
  rw [h'.descendants_eq, children_add hp, if_neg (Nat.ne_of_gt hp), children_eq_nil (Nat.le_refl _)]
  rfl

/-- The new node comes behind all that is below its parent. -/
theorem descendants_add_parent : (t.add p kind).1.descendants p = t.descendants p ++ [t.size] := by
  rw [h'.descendants_eq, children_add hp, if_pos rfl, List.flatMap_append, List.flatMap_singleton,
    descendants_add_new hp h', h.descendants_eq p]
  congr 1
  apply List.flatMap_congr
  intro c hc
  have hparent := h.mem_children.1 hc
  rw [h.descendants_add_aside hp fun hcp => h.not_above_self p (.of_parent hparent hcp)]

/-- What comes last below a last child comes last below its parent. -/
theorem descendants_add_outer {inner outer : NodeId}
    (hlast : (t.children outer).getLast? = some inner) (hinner : t.AtOrAbove inner p)
    (heq : (t.add p kind).1.descendants inner = t.descendants inner ++ [t.size]) :
    (t.add p kind).1.descendants outer = t.descendants outer ++ [t.size] := by
  obtain ⟨before, hchildren⟩ := List.getLast?_eq_some_iff.1 hlast
  have hnodup := h.nodup outer
  have hmem : ∀ c ∈ t.children outer, t.parent c = some outer := fun c => h.mem_children.1
  rw [hchildren] at hmem hnodup
  have hparent := hmem inner (List.mem_append_right _ (.head _))
  have hne : outer ≠ p := by
    rintro rfl
    exact h.not_above_self _ (.of_parent hparent hinner)
  rw [h'.descendants_eq, children_add hp, if_neg hne, h.descendants_eq outer, hchildren,
    List.flatMap_append, List.flatMap_append, List.flatMap_singleton, List.flatMap_singleton, heq,
    List.append_assoc]
  congr 1
  apply List.flatMap_congr
  intro c hc
  rw [h.descendants_add_aside hp]
  -- One child only leads down to the parent of the new node, and that is the last one.
  intro hcp
  have hsame := h.eq_of_atOrAbove (hmem c (List.mem_append_left _ hc)) hparent hcp hinner
  exact (List.nodup_append.1 hnodup).2.2 c hc inner (.head _) hsame

end add

section way

variable {p : NodeId} {ids : List NodeId} (hids : t.LastChildren (p :: ids))
include h hids

theorem atOrAbove_of_lastChildren : ∀ id ∈ p :: ids, t.AtOrAbove id p := by
  refine List.IsChain.induction (fun id => t.AtOrAbove id p) _ hids ?_ fun _ => .inl rfl
  exact fun inner outer hlast hinner =>
    .inr (.of_parent (h.mem_children.1 (List.mem_of_getLast? hlast)) hinner)

variable (hp : p < t.size) {kind : NodeKind}
include hp

/-- The way goes on to the new node. -/
theorem lastChildren_add : (t.add p kind).1.LastChildren (t.size :: p :: ids) := by
  refine List.isChain_cons_cons.2 ⟨?_, hids.imp_of_mem_imp fun inner outer hinner _ hlast => ?_⟩
  · rw [children_add hp, if_pos rfl]
    simp
  · rw [children_add hp, if_neg, hlast]
    rintro rfl
    have hparent := h.mem_children.1 (List.mem_of_getLast? hlast)
    exact h.not_above_self _ (.of_parent hparent (h.atOrAbove_of_lastChildren hids inner hinner))

/-- **A node at the lower end of a way along last children comes last below all nodes on
the way.** -/
theorem descendants_add_last (h' : (t.add p kind).1.WellFormed) :
    ∀ id ∈ p :: ids, (t.add p kind).1.descendants id = t.descendants id ++ [t.size] := by
  have habove := h.atOrAbove_of_lastChildren hids
  have hchain :=
    hids.imp_of_mem_imp (fun inner outer hinner _ hlast => And.intro (habove inner hinner) hlast)
  refine List.IsChain.induction _ _ hchain ?_ fun _ => h.descendants_add_parent hp h'
  exact fun inner outer hlast heq => h.descendants_add_outer hp h' hlast.2 hlast.1 heq

end way

end WellFormed

end Document

/-! ## 2. The order below the body -/

namespace Markup.Construction

/-- Once there is a body, what is open is a way along last children, and the numbers below the
body ascend. -/
structure Edged (b : Construction) : Prop where
  way : ∀ body, b.body = some body → b.document.LastChildren b.opened
  ascending : ∀ body, b.body = some body → (b.document.descendants body).Pairwise (· < ·)

theorem edged_of_none {b : Construction} (h : b.body = none) : b.Edged where
  way body hbody := by
    rw [h] at hbody
    cases hbody
  ascending body hbody := by
    rw [h] at hbody
    cases hbody

namespace Orderly

variable {b : Construction} (h : b.Orderly)
include h

theorem exists_opened {body : NodeId} (hbody : b.body = some body) :
    ∃ ids, b.opened = b.currentNode :: ids := by
  have hmem := h.furnished.contains_body hbody
  unfold currentNode
  cases hopened : b.opened with
  | nil =>
    rw [hopened] at hmem
    cases hmem
  | cons id ids => exact ⟨ids, rfl⟩

section openBody

variable (hnone : b.body = none) {attrs : Attributes}
include hnone

theorem opened_openBody : (b.openBody attrs).1.opened = [(b.openBody attrs).2, b.ensureHtml.2] := by
  obtain ⟨hfurnished, hhtml, -, hsame⟩ := h.furnished.ensureHtml
  exact congrArg (b.ensureHtml.1.document.size :: ·)
    (hfurnished.popUntil_opened hhtml (hsame.trans hnone))

theorem currentNode_openBody : (b.openBody attrs).1.currentNode = (b.openBody attrs).2 := by
  rw [currentNode, h.opened_openBody hnone]
  rfl

/-- A new body is the last child of `html`, and nothing is below it. -/
theorem edged_openBody (hattrs : (attrs.entries.map Attribute.name).Nodup) :
    (b.openBody attrs).1.Edged := by
  obtain ⟨hfurnished, hhtml, -, -⟩ := h.furnished.ensureHtml
  have hlt := Document.lt_size_of_isElement (hfurnished.html_element hhtml)
  have hdocument : (b.openBody attrs).1.document =
      (b.ensureHtml.1.document.add b.ensureHtml.2 (.element ⟨"body", attrs⟩)).1 := rfl
  have hwell := (h.openBody hnone hattrs).nested.wellFormed
  rw [hdocument] at hwell
  constructor
  · intro body _
    rw [h.opened_openBody hnone, hdocument]
    refine List.isChain_cons_cons.2 ⟨?_, .singleton _⟩
    rw [Document.children_add hlt, if_pos rfl, List.getLast?_concat]
    rfl
  · intro body hbody
    have hnew : body = b.ensureHtml.1.document.size := (Option.some.inj hbody).symm
    rw [hdocument, hnew, Document.WellFormed.descendants_add_new hlt hwell]
    exact .nil

end openBody

theorem edged_startInHead (hbody : b.body = none) (tag : String) (attrs : Attributes) :
    (b.startInHead tag attrs).Edged := by
  have hsame : b.ensureHead.1.body = none := by
    unfold Construction.ensureHead
    cases b.head with
    | some head => exact hbody
    | none => exact h.furnished.ensureHtml.2.2.2.trans hbody
  apply edged_of_none
  unfold Construction.startInHead Construction.pushUnlessVoid
  dsimp only
  split
  · exact hsame
  · exact hsame

end Orderly

/-! ## 3. Tokens -/

namespace Edged

variable {b : Construction} (h : b.Edged)
include h

/-- Less may be open than before. -/
theorem close {b' : Construction} (hdocument : b'.document = b.document) (hbody : b'.body = b.body)
    (hsuffix : b'.opened <:+ b.opened) : b'.Edged where
  way body hsome := by
    rw [hdocument]
    exact (h.way body (hbody ▸ hsome)).suffix hsuffix
  ascending body hsome := by
    rw [hdocument]
    exact h.ascending body (hbody ▸ hsome)

theorem pop : b.pop.Edged := h.close rfl rfl (List.tail_suffix b.opened)

theorem closeParagraph (tag : String) : (b.closeParagraph tag).Edged := by
  unfold Construction.closeParagraph
  split
  · exact h.pop
  · exact h

theorem closeGroup (tag : String) : (b.closeGroup tag).Edged := by
  unfold Construction.closeGroup
  split
  · exact h
  · split
    · exact h.pop
    · exact h

theorem endTag (tag : String) : (b.endTag tag).Edged := by
  unfold Construction.endTag
  split
  · exact h
  · split
    · exact h.close rfl rfl (List.suffix_refl _)
    · next id opened hdrop =>
      have hsuffix : id :: opened <:+ b.opened := hdrop ▸ List.dropWhile_suffix _
      exact h.close rfl rfl ((List.suffix_cons id opened).trans hsuffix)

variable (horderly : b.Orderly)
include horderly

/-- What is put into the innermost open element comes last below the body. -/
theorem grow {b' : Construction} (horderly' : b'.Orderly) {kind : NodeKind}
    (hdocument : b'.document = (b.document.add b.currentNode kind).1) (hbody : b'.body = b.body)
    (hopened : b'.opened = b.opened ∨ b'.opened = b.document.size :: b.opened) : b'.Edged where
  way body hsome := by
    obtain ⟨ids, hids⟩ := horderly.exists_opened (hbody ▸ hsome)
    have hway : (b.document.add b.currentNode kind).1.LastChildren
        (b.document.size :: b.currentNode :: ids) :=
      horderly.nested.wellFormed.lastChildren_add (hids ▸ h.way body (hbody ▸ hsome))
        horderly.furnished.currentNode_lt
    rw [hdocument]
    rcases hopened with hopened | hopened
    · rw [hopened, hids]
      exact hway.tail
    · rw [hopened, hids]
      exact hway
  ascending body hsome := by
    have hsome' : b.body = some body := hbody ▸ hsome
    obtain ⟨ids, hids⟩ := horderly.exists_opened hsome'
    have hmem : body ∈ b.currentNode :: ids :=
      hids ▸ List.contains_iff_mem.1 (horderly.furnished.contains_body hsome')
    have hwell := horderly'.nested.wellFormed
    rw [hdocument] at hwell ⊢
    rw [horderly.nested.wellFormed.descendants_add_last (hids ▸ h.way body hsome')
      horderly.furnished.currentNode_lt hwell body hmem, List.pairwise_append]
    refine ⟨h.ascending body hsome', List.pairwise_singleton _ _, fun x hx y hy => ?_⟩
    rw [List.mem_singleton.1 hy]
    exact horderly.nested.wellFormed.lt_size_of_mem_descendants hx

/-- Of what is open inside of the body, nothing is below `html` itself. -/
theorem head_ne_currentNode {body : NodeId} (hbody : b.body = some body) :
    b.head ≠ some b.currentNode := by
  intro hhead
  obtain ⟨inside, hopened, hinside⟩ := horderly.furnished.opened
  obtain ⟨ids, hids⟩ := horderly.exists_opened hbody
  have hway := h.way body hbody
  have hhtml : b.html ≠ none := fun hnone => by
    rw [(horderly.furnished.bare hnone).2.1] at hhead
    cases hhead
  obtain ⟨html, hhtml⟩ := Option.ne_none_iff_exists'.1 hhtml
  have hparent : b.document.parent b.currentNode = some html := by
    have hmem : b.currentNode ∈ b.document.elementChildren html := by
      rw [horderly.inner html hhtml, hhead]
      exact .head _
    exact horderly.nested.wellFormed.mem_children.1 (List.mem_filter.1 hmem).1
  -- The body is not the head, and the next one outward is the body or inside of it, so it is
  -- not `html`.
  have hnext : ∀ next ∈ inside ++ [body], b.html ≠ some next := by
    intro next hmem
    rcases List.mem_append.1 hmem with hmem | hmem
    · exact (hinside next hmem).2
    · rw [List.mem_singleton.1 hmem]
      exact horderly.furnished.html_ne (horderly.furnished.tag?_body.2 hbody) (by decide)
  rw [hbody, hhtml] at hopened
  cases inside with
  | nil =>
    have hsame : b.currentNode = body := (List.cons_eq_cons.1 (hids.symm.trans hopened)).1
    have htag := horderly.furnished.tag?_head.2 hhead
    rw [hsame, horderly.furnished.tag?_body.2 hbody, Option.some_inj] at htag
    exact absurd htag (by decide)
  | cons id inside =>
    obtain ⟨next, rest, hrest⟩ := List.exists_cons_of_ne_nil
      (List.append_ne_nil_of_right_ne_nil inside (List.cons_ne_nil body []))
    have hsame : b.currentNode = id := (List.cons_eq_cons.1 (hids.symm.trans hopened)).1
    have hlast : (b.document.children next).getLast? = some id := by
      rw [hopened, Option.toList_some, List.cons_append, List.cons_append, hrest] at hway
      exact (List.isChain_cons_cons.1 hway).1
    have hparent' := horderly.nested.wellFormed.mem_children.1 (List.mem_of_getLast? hlast)
    rw [← hsame, hparent, Option.some_inj] at hparent'
    refine hnext next ?_ (hparent' ▸ hhtml)
    rw [List.cons_append, hrest]
    exact .tail _ (.head rest)

/-- Inside of the body, a text goes where everything goes. -/
theorem not_beforeBody {body : NodeId} (hbody : b.body = some body) : b.beforeBody = false := by
  obtain ⟨helement, hne⟩ := horderly.furnished.currentNode_inside hbody
  obtain ⟨e, he⟩ := Option.isSome_iff_exists.1 helement
  have htag : b.tag? b.currentNode = some e.tag := congrArg (Option.map Element.tag) he
  have hhtml : e.tag ≠ "html" := fun heq => hne (horderly.furnished.tag?_html.1 (heq ▸ htag))
  have hhead : e.tag ≠ "head" := fun heq => h.head_ne_currentNode horderly hbody
    (horderly.furnished.tag?_head.1 (heq ▸ htag))
  rw [beforeBody, horderly.currentTag_eq htag]
  simp [hhtml, hhead]

theorem ensureBody : b.ensureBody.1.Edged := by
  unfold Construction.ensureBody
  cases hbody : b.body with
  | some body =>
    dsimp only
    rw [if_pos (horderly.furnished.contains_body hbody)]
    exact h
  | none =>
    have hempty : (Attributes.empty.entries.map Attribute.name).Nodup := List.nodup_nil
    exact horderly.edged_openBody hbody hempty

theorem startInBody {tag : String} {attrs : Attributes}
    (horderly' : (b.startInBody tag attrs).Orderly) :
    (b.startInBody tag attrs).Edged := by
  have hclosed := ((h.ensureBody horderly).closeParagraph tag).closeGroup tag
  have hclosed' := (horderly.ensureBody.closeParagraph tag).closeGroup tag
  unfold Construction.startInBody pushUnlessVoid at horderly' ⊢
  dsimp only at horderly' ⊢
  split at horderly' <;> rename_i hvoid
  · rw [if_pos hvoid]
    exact hclosed.grow hclosed' horderly' rfl rfl (.inl rfl)
  · rw [if_neg hvoid]
    exact hclosed.grow hclosed' horderly' rfl rfl (.inr rfl)

theorem insertText {data : String} (horderly' : (b.insertText data).Orderly) :
    (b.insertText data).Edged := by
  unfold Construction.insertText at horderly' ⊢
  cases hbody : b.body with
  | some body =>
    rw [h.not_beforeBody horderly hbody, if_neg Bool.false_ne_true] at horderly' ⊢
    exact h.grow horderly horderly' rfl rfl (.inl rfl)
  | none =>
    split at horderly'
    · next hbefore =>
      rw [if_pos hbefore]
      split at horderly'
      · next hblank =>
        rw [if_pos hblank]
        exact h
      · next hblank =>
        rw [if_neg hblank]
        have hensure : b.ensureBody = b.openBody .empty := by rw [Construction.ensureBody, hbody]
        have hcurrent : b.ensureBody.1.currentNode = b.ensureBody.2 := by
          rw [hensure]
          exact horderly.currentNode_openBody hbody
        -- The new body is the innermost open element.
        have hdocument : (b.ensureBody.1.insert b.ensureBody.2 (.text data)).1.document =
            (b.ensureBody.1.document.add b.ensureBody.1.currentNode (.text data)).1 := by
          rw [hcurrent]
          rfl
        exact (h.ensureBody horderly).grow horderly.ensureBody horderly' hdocument rfl (.inl rfl)
    · next hbefore =>
      rw [if_neg hbefore]
      exact edged_of_none hbody

theorem ensureHtml : b.ensureHtml.1.Edged := by
  unfold Construction.ensureHtml
  cases hhtml : b.html with
  | some html => exact h
  | none => exact edged_of_none (horderly.furnished.bare hhtml).2.2

theorem startHtml (attrs : Attributes) : (b.startHtml attrs).Edged := by
  unfold Construction.startHtml
  cases hhtml : b.html with
  | some html => exact h
  | none => exact edged_of_none (horderly.furnished.bare hhtml).2.2

theorem startHead (attrs : Attributes) : (b.startHead attrs).Edged := by
  show Edged (if b.ensureHtml.1.head.isNone && b.ensureHtml.1.body.isNone then _
    else b.ensureHtml.1)
  split
  · next hnone =>
    rw [Bool.and_eq_true, Option.isNone_iff_eq_none, Option.isNone_iff_eq_none] at hnone
    exact edged_of_none hnone.2
  · exact h.ensureHtml horderly

theorem startBody {attrs : Attributes} (hattrs : (attrs.entries.map Attribute.name).Nodup) :
    (b.startBody attrs).Edged := by
  unfold Construction.startBody
  split
  · next hnone => exact horderly.edged_openBody (Option.isNone_iff_eq_none.1 hnone) hattrs
  · exact h

theorem startTag {tag : String} {attrs : Attributes}
    (hattrs : (attrs.entries.map Attribute.name).Nodup) :
    (b.startTag tag attrs).Edged := by
  have horderly' := horderly.startTag tag hattrs
  unfold Construction.startTag at horderly' ⊢
  split
  · exact h.startHtml horderly attrs
  · next hhtml =>
    split
    · exact h.startHead horderly attrs
    · next hhead =>
      split
      · exact h.startBody horderly hattrs
      · next hbody =>
        split
        · next hbefore =>
          rw [Bool.and_eq_true, Option.isNone_iff_eq_none] at hbefore
          exact horderly.edged_startInHead hbefore.1 tag attrs
        · next hbefore =>
          rw [if_neg hhtml, if_neg hhead, if_neg hbody, if_neg hbefore] at horderly'
          exact h.startInBody horderly horderly'

/-- One token leaves the numbers below the body ascending. -/
theorem step (token : Token) : (b.step token).Edged := by
  have horderly' := horderly.step token
  cases token with
  | doctype name => exact h
  | startTag name selfClosing attributes =>
    exact h.startTag horderly (Attributes.nodup_ofList attributes)
  | endTag name => exact h.endTag name
  | comment data => exact h.grow horderly horderly' rfl rfl (.inl rfl)
  | text data => exact h.insertText horderly horderly'
  | endOfFile => exact h

omit h horderly in
theorem run (h : b.Edged) (horderly : b.Orderly) (tokens : List Token) : (b.run tokens).Edged := by
  induction tokens generalizing b with
  | nil => exact h
  | cons token tokens ih =>
    -- The end mark stops the run, and any other token is a step.
    have hrest := ih (h.step horderly token) (horderly.step token)
    cases token with
    | endOfFile => exact h
    | _ => exact hrest

end Edged

end Markup.Construction

end UniqueSelector
