import UniqueSelector.Proofs.Edits
import UniqueSelector.Proofs.Edges
import UniqueSelector.Proofs.Rebuilding

/-!
# Gathered — nothing that the tokens say is lost

Every node is attached below an older one as soon as it is there, so all nodes are below the
document node. A start tag makes elements only, and each comment and each text that is not blank
becomes one node that holds just that.
-/

namespace UniqueSelector

open Markup

/-! ## 1. Comments and texts -/

/-- A comment, or a text that is not blank. -/
def NodeKind.isContent : NodeKind → Bool
  | .comment _ => true
  | .text data => !allBlank data
  | _ => false

/-- What the nodes hold, in the order of their numbers. -/
def Document.kinds (t : Document) : List NodeKind := t.nodes.toList.map Node.kind

def Document.contents (t : Document) : List NodeKind := t.kinds.filter NodeKind.isContent

/-- The comment or the text that a token stands for, unless that is blank. -/
def Markup.Token.content? : Token → Option NodeKind
  | .comment data => some (.comment data)
  | .text data => if allBlank data then none else some (.text data)
  | _ => none

namespace Document

theorem getElem?_kinds (t : Document) (id : NodeId) : t.kinds[id]? = t.kind? id := by
  rw [kinds, List.getElem?_map, Array.getElem?_toList]
  rfl

theorem length_kinds (t : Document) : t.kinds.length = t.size := by
  rw [kinds, List.length_map, Array.length_toList]
  rfl

theorem kinds_add (t : Document) (p : NodeId) (kind : NodeKind) :
    (t.add p kind).1.kinds = t.kinds ++ [kind] := by
  apply List.ext_getElem?
  intro id
  rw [getElem?_kinds, kind?_add, List.getElem?_append, length_kinds, getElem?_kinds]
  split
  · next hnew => rw [hnew, if_neg (Nat.lt_irrefl _), Nat.sub_self, List.getElem?_cons_zero]
  · next hne =>
    split
    · rfl
    · next hge =>
      have hlt : t.size < id := Nat.lt_of_le_of_ne (Nat.le_of_not_lt hge) (Ne.symm hne)
      rw [kind?, get?_eq_none (Nat.le_of_lt hlt), List.getElem?_eq_none]
      · rfl
      · exact Nat.sub_pos_of_lt hlt

theorem contents_add (t : Document) (p : NodeId) (kind : NodeKind) :
    (t.add p kind).1.contents = t.contents ++ if kind.isContent then [kind] else [] := by
  rw [contents, kinds_add, List.filter_append, List.filter_singleton, Bool.cond_eq_ite]
  rfl

theorem contents_addElement (t : Document) (p : NodeId) (e : Element) :
    (t.add p (.element e)).1.contents = t.contents := by
  rw [contents_add]
  exact List.append_nil _

end Document

namespace Markup.Construction

variable (b : Construction)

theorem contents_ensureHtml : b.ensureHtml.1.document.contents = b.document.contents := by
  unfold ensureHtml
  cases b.html with
  | some html => rfl
  | none => exact Document.contents_addElement _ _ _

theorem contents_ensureHead : b.ensureHead.1.document.contents = b.document.contents := by
  unfold ensureHead
  cases b.head with
  | some head => rfl
  | none => exact (Document.contents_addElement _ _ _).trans b.contents_ensureHtml

theorem contents_openBody (attrs : Attributes) :
    (b.openBody attrs).1.document.contents = b.document.contents :=
  (Document.contents_addElement _ _ _).trans b.contents_ensureHtml

theorem contents_ensureBody : b.ensureBody.1.document.contents = b.document.contents := by
  unfold ensureBody
  cases b.body with
  | some body =>
    dsimp only
    split <;> rfl
  | none => exact b.contents_openBody .empty

theorem document_pushUnlessVoid (tag : String) (id : NodeId) :
    (b.pushUnlessVoid tag id).document = b.document := by
  unfold pushUnlessVoid
  split <;> rfl

theorem document_closeParagraph (tag : String) : (b.closeParagraph tag).document = b.document := by
  unfold closeParagraph
  split <;> rfl

theorem document_closeGroup (tag : String) : (b.closeGroup tag).document = b.document := by
  unfold closeGroup
  split
  · rfl
  · split <;> rfl

/-- A start tag makes elements only. -/
theorem contents_startTag (tag : String) (attrs : Attributes) :
    (b.startTag tag attrs).document.contents = b.document.contents := by
  unfold startTag
  split
  · unfold startHtml
    cases b.html with
    | some html => rfl
    | none => exact Document.contents_addElement _ _ _
  · split
    · show (if b.ensureHtml.1.head.isNone && b.ensureHtml.1.body.isNone then _
        else b.ensureHtml.1).document.contents = _
      split
      · exact (Document.contents_addElement _ _ _).trans b.contents_ensureHtml
      · exact b.contents_ensureHtml
    · split
      · unfold startBody
        split
        · exact b.contents_openBody attrs
        · rfl
      · split
        · unfold startInHead
          dsimp only
          rw [document_pushUnlessVoid]
          exact (Document.contents_addElement _ _ _).trans b.contents_ensureHead
        · unfold startInBody
          dsimp only
          rw [document_pushUnlessVoid]
          refine (Document.contents_addElement _ _ _).trans ?_
          rw [document_closeGroup, document_closeParagraph, contents_ensureBody]

theorem contents_endTag (tag : String) :
    (b.endTag tag).document.contents = b.document.contents := by
  unfold endTag
  split
  · rfl
  · split <;> rfl

/-- A text becomes a node unless it is blank; a blank one may become one as well. -/
theorem contents_insertText (data : String) :
    (b.insertText data).document.contents =
      b.document.contents ++ if allBlank data then [] else [.text data] := by
  have hkind : NodeKind.isContent (.text data) = !allBlank data := rfl
  unfold insertText
  split
  · split
    · next hblank => rw [List.append_nil]
    · next hblank =>
      refine (Document.contents_add _ _ _).trans ?_
      show b.ensureBody.1.document.contents ++ _ = _
      rw [contents_ensureBody, hkind]
      simp [hblank]
  · refine (Document.contents_add _ _ _).trans ?_
    rw [hkind]
    cases allBlank data <;> rfl

theorem contents_step (token : Token) :
    (b.step token).document.contents = b.document.contents ++ token.content?.toList := by
  cases token with
  | doctype name => exact (List.append_nil _).symm
  | startTag name selfClosing attributes =>
    exact (b.contents_startTag _ _).trans (List.append_nil _).symm
  | endTag name => exact (b.contents_endTag name).trans (List.append_nil _).symm
  | comment data => exact Document.contents_add _ _ _
  | text data =>
    refine (b.contents_insertText data).trans ?_
    rw [Token.content?]
    split <;> rfl
  | endOfFile => exact (List.append_nil _).symm

/-- **Each comment and each text that is not blank becomes one node**, in the order of the tokens up
to the end mark. -/
theorem contents_run (tokens : List Token) :
    (b.run tokens).document.contents =
      b.document.contents ++ (tokens.takeWhile (· != .endOfFile)).filterMap Token.content? := by
  induction tokens generalizing b with
  | nil => exact (List.append_nil _).symm
  | cons token tokens ih =>
    by_cases hend : token = .endOfFile
    · rw [hend]
      exact (List.append_nil _).symm
    · rw [run_cons hend, ih, contents_step, List.takeWhile_cons_of_pos (by simpa using hend),
        List.append_assoc]
      congr 1
      cases h : token.content? with
      | none => rw [List.filterMap_cons_none h]; rfl
      | some kind => rw [List.filterMap_cons_some h]; rfl

end Markup.Construction

/-! ## 2. Documents from tokens -/

/-- The document that tokens leave behind: its links agree, every node is attached below an older
one and so is below the document node, comments and texts are those of the tokens, and below the
body the numbers ascend. -/
structure Document.Gathered (t : Document) (tokens : List Token) : Prop where
  linked : t.Linked
  attached : ∀ id, id ≠ root → id < t.size → ∃ p < id, t.parent id = some p
  /-- Every number but that of the document node is listed, each once. -/
  everything : (t.descendants root).Perm (List.range' 1 (t.size - 1))
  contents : t.contents = (tokens.takeWhile (· != .endOfFile)).filterMap Token.content?
  ascending : ∀ body, t.body = some body → (t.descendants body).Pairwise (· < ·)

theorem Document.Rooted.perm_descendants {t : Document} (h : t.Rooted) (hwell : t.WellFormed) :
    (t.descendants root).Perm (List.range' 1 (t.size - 1)) := by
  refine (List.perm_ext_iff_of_nodup (hwell.nodup_descendants root) List.nodup_range').2
    fun (id : Nat) => ?_
  have hsize : 1 + (t.size - 1) = t.size := Nat.add_sub_cancel' h.nonempty
  rw [hwell.mem_descendants_iff_above, List.mem_range'_1, hsize]
  constructor
  · intro habove
    refine ⟨Nat.pos_of_ne_zero ?_,
      hwell.lt_size_of_mem_descendants (hwell.mem_descendants_iff_above.2 habove)⟩
    rintro rfl
    exact hwell.not_above_self _ habove
  · rintro ⟨hle, hlt⟩
    obtain ⟨k, hk⟩ := h.exists_ascend id (Nat.ne_of_gt hle) hlt
    exact above_iff_ascend.2 ⟨k, hk⟩

/-- **Nothing that the tokens say is lost**, whatever they are. -/
theorem Markup.construct_gathered (tokens : List Token) :
    (construct tokens).document.Gathered tokens where
  linked := (Construction.orderly_new.run tokens).nested.wellFormed.linked
  attached := (Construction.orderly_new.run tokens).furnished.rooted.attached
  everything := by
    have horderly := Construction.orderly_new.run tokens
    exact horderly.furnished.rooted.perm_descendants horderly.nested.wellFormed
  contents := Construction.contents_run {} tokens
  ascending body hbody := by
    have horderly := Construction.orderly_new.run tokens
    have hedged : (construct tokens).Edged :=
      (Construction.edged_of_none rfl).run Construction.orderly_new tokens
    exact hedged.ascending body (horderly.body_eq ▸ hbody)

end UniqueSelector
