import UniqueSelector.Proofs.Spelling
import UniqueSelector.Proofs.Tokens

/-!
# Streams — what the lexer makes of any text

Whatever text is read, each token of it can be written down: names have the characters that names
have, the names of the attributes differ, no text is empty and no comment has its own end in it. A
text becomes a token only in front of another one, so no text follows a text, and the end mark comes
last and once.
-/

namespace UniqueSelector.Markup

/-! ## 1. Rows of tokens -/

/-- Not both of them are texts. -/
def Token.Apart (t next : Token) : Prop := (t.isText && next.isText) = false

/-- What the lexer makes of a text: the end mark in the last place and nowhere else, other tokens
that can be written down, and no text behind a text. -/
structure Stream (ts : List Token) : Prop where
  ended : ts.getLast? = some .endOfFile
  once : ts.count .endOfFile = 1
  spellable : ∀ t ∈ ts, t ≠ .endOfFile → t.Spellable
  apart : ts.IsChain Token.Apart

/-- Tokens in front of the end mark. -/
structure Row (ts : List Token) : Prop where
  spellable : ∀ t ∈ ts, t.Spellable
  apart : ts.IsChain Token.Apart

/-- Tokens behind which a text can come as well. -/
structure OpenRow (ts : List Token) : Prop extends Row ts where
  last : ∀ t ∈ ts.getLast?, t.isText = false

theorem openRow_nil : OpenRow [] where
  spellable t ht := by cases ht
  apart := .nil
  last t ht := by cases ht

theorem Row.isChain_concat {ts : List Token} (h : Row ts) {t : Token} (ht : t.isText = false) :
    (ts ++ [t]).IsChain Token.Apart := by
  refine List.isChain_append.2 ⟨h.apart, .singleton t, fun u _ next hnext => ?_⟩
  rw [List.head?_cons, Option.mem_some_iff] at hnext
  rw [Token.Apart, ← hnext, ht, Bool.and_false]

/-- Behind a token that is no text anything can come. -/
theorem Row.push {ts : List Token} (h : Row ts) {t : Token} (ht : t.Spellable)
    (hkind : t.isText = false) :
    OpenRow (ts ++ [t]) where
  spellable := by
    rw [List.forall_mem_append]
    exact ⟨h.spellable, fun u hu => List.mem_singleton.1 hu ▸ ht⟩
  apart := h.isChain_concat hkind
  last u hu := by
    rw [List.getLast?_concat, Option.mem_some_iff] at hu
    rwa [← hu]

theorem OpenRow.pushText {ts : List Token} (h : OpenRow ts) {data : String} (hdata : data ≠ "") :
    Row (ts ++ [Token.text data]) where
  spellable := by
    rw [List.forall_mem_append]
    exact ⟨h.spellable, fun t ht => List.mem_singleton.1 ht ▸ hdata⟩
  apart := by
    refine List.isChain_append.2 ⟨h.apart, .singleton _, fun u hu next _ => ?_⟩
    rw [Token.Apart, h.last u hu, Bool.false_and]

/-- The end mark makes a stream of a row. -/
theorem Row.stream {ts : List Token} (h : Row ts) : Stream (ts ++ [.endOfFile]) where
  ended := List.getLast?_concat
  once := by
    have hnone : Token.endOfFile ∉ ts := fun hmem => h.spellable _ hmem
    rw [List.count_append, List.count_eq_zero_of_not_mem hnone, List.count_singleton_self]
  spellable t ht hne := by
    rcases List.mem_append.1 ht with ht | ht
    · exact h.spellable t ht
    · exact absurd (List.mem_singleton.1 ht) hne
  apart := h.isChain_concat rfl

/-! ## 2. Comments -/

/-- The end of a comment begins nowhere in what has been read of it, whatever of it is still
to come. -/
def Unclosed (read rest : List Char) : Prop :=
  ∀ front back, read = front ++ back → back ≠ [] → ¬"-->".toList <+: back ++ rest

theorem unclosed_nil (rest : List Char) : Unclosed [] rest := by
  intro front back h hback
  exact absurd (List.append_eq_nil_iff.1 h.symm).2 hback

/-- One character further on. -/
theorem Unclosed.push {read rest : List Char} {c : Char} (h : Unclosed read (c :: rest))
    (hc : ¬"-->".toList <+: c :: rest) : Unclosed (read ++ [c]) rest := by
  intro front back heq hback
  rcases List.eq_nil_or_concat back with rfl | ⟨back, d, rfl⟩
  · exact absurd rfl hback
  · rw [List.concat_eq_append, ← List.append_assoc] at heq
    obtain ⟨hread, hd⟩ := List.append_inj' heq rfl
    cases hd
    rw [List.concat_eq_append, List.append_assoc]
    -- Either the end would begin with this character or earlier on.
    cases back with
    | nil => exact hc
    | cons b back => exact h front (b :: back) hread (List.cons_ne_nil b back)

theorem Unclosed.not_within {read rest : List Char} (h : Unclosed read rest) :
    ¬"-->".toList <:+: read := by
  rintro ⟨front, back, heq⟩
  rw [List.append_assoc] at heq
  refine h front _ heq.symm (List.append_ne_nil_of_left_ne_nil (by decide) back) ?_
  exact (List.prefix_append _ back).trans (List.prefix_append _ rest)

theorem not_within_of_notMem {data : List Char} (h : '>' ∉ data) : ¬"-->".toList <:+: data :=
  fun hinside =>
  h (hinside.subset (by decide))

/-! ## 3. Tags -/

/-- The first word of a text without a closing bracket, in lower case, is the name of a
document type. -/
theorem spellable_doctype {cs : List Char} (h : '>' ∉ cs) :
    (Token.doctype (String.ofList (((splitWords cs).headD []).map Char.toLower))).Spellable := by
  intro c hc
  rw [String.toList_ofList] at hc
  obtain ⟨d, hd, rfl⟩ := List.mem_map.1 hc
  have hword : (splitWords cs).headD [] ∈ splitWords cs := by
    cases hwords : splitWords cs with
    | nil =>
      rw [hwords] at hd
      cases hd
    | cons w ws => exact .head ws
  obtain ⟨hmem, hblank⟩ := mem_of_mem_splitWords hword hd
  have hclose : d.toLower ≠ '>' := toLower_ne rfl fun heq => h (heq ▸ hmem)
  simp [isBlank_toLower hblank, hclose]

theorem isLower_toLower {c : Char} (h : c.isAlpha = true) : c.toLower.isLower = true := by
  have halpha := c.isAlpha_toLower_eq_isAlpha.trans h
  rwa [Char.isAlpha, c.isUpper_toLower_eq_false, Bool.false_or] at halpha

theorem SpelledTagName.push {name : String} (h : SpelledTagName name) {c : Char}
    (hc : isTagChar c = true) :
    SpelledTagName (name.push c) := by
  refine ⟨?_, h.2.push hc⟩
  obtain ⟨d, ds, hname, -⟩ := h.exists_cons
  have hfirst := h.1
  rw [hname] at hfirst
  rw [String.toList_push, hname]
  exact hfirst

/-- A letter is the first one of a name. -/
theorem spelledTagName_first {c : Char} (hc : c.isAlpha = true)
    (hchar : isTagChar c.toLower = true) :
    SpelledTagName ("".push c.toLower) := by
  refine ⟨?_, tagName_empty.push hchar⟩
  rw [String.toList_push]
  exact isLower_toLower hc

/-- A character of the name of an attribute. -/
def isAttributeChar (c : Char) : Bool := isTagChar c && c != '='

namespace OpenTag

/-- The attributes so far can be written down, and so can the name of the one that is being read,
once it has one. -/
structure Tidy (tag : OpenTag) : Prop where
  names : ∀ a ∈ tag.attributes, SpelledAttributeName a.name
  distinct : (tag.attributes.map Attribute.name).Nodup
  pending : ∀ a ∈ tag.pending, ∀ c ∈ a.name.toList, isAttributeChar c = true

theorem tidy_new (name : String) (closing : Bool) : Tidy { name, closing } where
  names a ha := by cases ha
  distinct := List.nodup_nil
  pending a ha := by cases ha

namespace Tidy

variable {tag : OpenTag} (h : tag.Tidy)
include h

theorem startAttribute : tag.startAttribute.Tidy where
  names := h.names
  distinct := h.distinct
  pending a ha c hc := by
    cases ha
    simp at hc

theorem pushName {c : Char} (hc : isAttributeChar c.toLower = true) : (tag.pushName c).Tidy where
  names := h.names
  distinct := h.distinct
  pending a ha d hd := by
    obtain ⟨b, hb, rfl⟩ := Option.map_eq_some_iff.1 ha
    rw [String.toList_push, List.mem_append, List.mem_singleton] at hd
    rcases hd with hd | rfl
    · exact h.pending b hb d hd
    · exact hc

theorem pushValue (c : Char) : (tag.pushValue c).Tidy where
  names := h.names
  distinct := h.distinct
  pending a ha := by
    obtain ⟨b, hb, rfl⟩ := Option.map_eq_some_iff.1 ha
    exact h.pending b hb

/-- An attribute joins the others only if it has a name, and one that none of them has. -/
theorem finishAttribute : tag.finishAttribute.Tidy := by
  unfold OpenTag.finishAttribute
  split
  · exact h
  · next a hpending =>
    split
    · exact ⟨h.names, h.distinct, fun _ hb => by cases hb⟩
    · next hnew =>
      rw [Bool.or_eq_true, not_or, Bool.not_eq_true, Bool.not_eq_true] at hnew
      have hname : SpelledAttributeName a.name :=
        ⟨fun hempty => by simp [hempty] at hnew, h.pending a hpending⟩
      have hother : a.name ∉ tag.attributes.map Attribute.name := by
        rintro hmem
        obtain ⟨b, hb, heq⟩ := List.mem_map.1 hmem
        have hne := List.any_eq_false.1 hnew.2 b hb
        exact hne (beq_iff_eq.2 heq)
      refine ⟨?_, ?_, fun _ hb => by cases hb⟩
      · rw [List.forall_mem_append]
        exact ⟨h.names, fun b hb => List.mem_singleton.1 hb ▸ hname⟩
      · rw [List.map_append, List.map_singleton, List.nodup_append_comm]
        exact List.nodup_cons.2 ⟨hother, h.distinct⟩

theorem spellable_token (hname : SpelledTagName tag.name) : tag.token.Spellable := by
  unfold token
  split
  · exact hname
  · exact ⟨hname, h.names, h.distinct⟩

end Tidy

theorem spelled_finishAttribute {tag : OpenTag} (h : SpelledTagName tag.name) :
    SpelledTagName tag.finishAttribute.name := by
  rwa [finishAttribute_name]

theorem isText_token (tag : OpenTag) : tag.token.isText = false := by
  unfold token
  split <;> rfl

end OpenTag

/-- The name of the tag so far; where it begins, a letter is next. -/
def OpenTag.Begun (tag : OpenTag) (rest : List Char) : Prop :=
  SpelledTagName tag.name ∨ (tag.name = "" ∧ ∃ c cs, rest = c :: cs ∧ c.isAlpha = true)

/-- What ends a name is no letter. -/
theorem OpenTag.Begun.spelled {tag : OpenTag} {c : Char} {cs : List Char} (h : tag.Begun (c :: cs))
    (hc : c.isAlpha = false) : SpelledTagName tag.name := by
  refine h.resolve_right ?_
  rintro ⟨-, d, ds, hd, halpha⟩
  cases hd
  rw [hc] at halpha
  cases halpha

theorem OpenTag.Begun.push {tag : OpenTag} {c : Char} {cs : List Char} (h : tag.Begun (c :: cs))
    (hc : isTagChar c.toLower = true) : SpelledTagName (tag.name.push c.toLower) := by
  rcases h with hname | ⟨hempty, d, ds, hd, halpha⟩
  · exact hname.push hc
  · cases hd
    rw [hempty]
    exact spelledTagName_first halpha hc

/-! ## 4. The machine -/

/-- What a state knows of the tag or the comment that is being read. -/
def LexState.Knowing (tag : OpenTag) (comment : String) (rest : List Char) : LexState → Prop
  | .data | .tagOpen | .endTagOpen => True
  | .rawText name => SpelledTagName name
  | .tagName => tag.Begun rest
  | .comment => Unclosed comment.toList rest
  | .bogusComment => '>' ∉ comment.toList
  | _ => SpelledTagName tag.name

namespace Lexer

/-- At work, with all in order so far. -/
structure Tidy (l : Lexer) : Prop where
  unfinished : l.finished = false
  row : OpenRow l.tokens.toList
  tag : l.tag.Tidy
  state : l.state.Knowing l.tag l.comment l.rest

/-- At work with all in order, or done with a whole stream. -/
def Streams (l : Lexer) : Prop := l.Tidy ∨ (l.finished = true ∧ Stream l.tokens.toList)

theorem knowing_nextState {tag : OpenTag} (h : SpelledTagName tag.name) (comment : String)
    (rest : List Char) :
    tag.nextState.Knowing {} comment rest := by
  unfold OpenTag.nextState
  split
  · exact h
  · trivial

theorem row_flushText {l : Lexer} (h : OpenRow l.tokens.toList) :
    Row l.flushText.tokens.toList := by
  unfold flushText
  split
  · exact h.toRow
  · next hempty =>
    rw [Array.toList_push]
    exact h.pushText fun heq => hempty (by simp [heq])

namespace Tidy

variable {l : Lexer} (h : l.Tidy)
include h

theorem goto {state : LexState} {rest : List Char} (hstate : state.Knowing l.tag l.comment rest) :
    (l.goto state rest).Tidy := ⟨h.unfinished, h.row, h.tag, hstate⟩

theorem row_emit {t : Token} (ht : t.Spellable) (hkind : t.isText = false) :
    OpenRow (l.emit t).tokens.toList := by
  rw [emit, Array.toList_push]
  exact (row_flushText h.row).push ht hkind

theorem finish : l.finish.Streams := by
  refine .inr ⟨rfl, ?_⟩
  show Stream (l.flushText.tokens.push .endOfFile).toList
  rw [Array.toList_push]
  exact (row_flushText h.row).stream

theorem abandonTag : l.abandonTag.Streams :=
  Tidy.finish (l := l.remark _) ⟨h.unfinished, h.row, h.tag, h.state⟩

theorem unfinished_emit (t : Token) : (l.emit t).finished = false :=
  (emit_finished l t).trans h.unfinished

theorem emitTag (hname : SpelledTagName l.tag.name) (rest : List Char) : (l.emitTag rest).Tidy where
  unfinished := h.unfinished_emit l.tag.finishAttribute.token
  row := by
    apply h.row_emit
    · exact h.tag.finishAttribute.spellable_token (OpenTag.spelled_finishAttribute hname)
    · exact OpenTag.isText_token _
  tag := OpenTag.tidy_new "" false
  state := knowing_nextState (OpenTag.spelled_finishAttribute hname) _ _

theorem tag_emit (t : Token) : (l.emit t).tag.Tidy := by
  show l.flushText.tag.Tidy
  rw [flushText_tag]
  exact h.tag

theorem emit_goto {t : Token} (ht : t.Spellable) (hkind : t.isText = false) (rest : List Char) :
    ((l.emit t).goto .data rest).Tidy :=
  ⟨h.unfinished_emit t, h.row_emit ht hkind, h.tag_emit t, trivial⟩

theorem emitComment (hcomment : ¬"-->".toList <:+: l.comment.toList) (rest : List Char) :
    (l.emitComment rest).Tidy :=
  ⟨h.unfinished_emit (.comment l.comment), h.row_emit hcomment rfl, h.tag_emit (.comment l.comment),
    trivial⟩

theorem startTag {name : String} {closing : Bool} {rest : List Char}
    (hname : OpenTag.Begun { name, closing } rest) :
    Tidy { l with tag := { name, closing }, state := .tagName, rest } :=
  ⟨h.unfinished, h.row, OpenTag.tidy_new name closing, hname⟩

theorem declaration (cs : List Char) : (l.declaration cs).Tidy := by
  unfold Lexer.declaration
  split
  · exact ⟨h.unfinished, h.row, h.tag, unclosed_nil _⟩
  · split
    · exact ⟨h.unfinished, h.row, h.tag, by simp [startComment, LexState.Knowing]⟩
    · next after _ =>
      have hname : '>' ∉ after.takeWhile (· != '>') := fun hmem =>
        absurd (List.mem_takeWhile_imp hmem) (by decide)
      exact h.emit_goto (spellable_doctype hname) rfl _

theorem textReference (hs : l.state = .data) (cs : List Char) : (l.textReference cs).Tidy := by
  have hstate : ∀ rest, l.state.Knowing l.tag l.comment rest := fun _ => by rw [hs]; trivial
  unfold Lexer.textReference
  dsimp only
  split <;> exact ⟨h.unfinished, h.row, h.tag, hstate _⟩

theorem valueReference
    (hs : ∀ tag comment rest, l.state.Knowing tag comment rest = SpelledTagName tag.name)
    (hname : SpelledTagName l.tag.name) (cs : List Char) : (l.valueReference cs).Tidy := by
  have hstate : ∀ c rest, l.state.Knowing (l.tag.pushValue c) l.comment rest := fun c rest => by
    rw [hs]
    exact hname
  unfold Lexer.valueReference
  dsimp only
  split <;> exact ⟨h.unfinished, h.row, h.tag.pushValue _, hstate _ _⟩

/-! ## 5. Steps outside of tags -/

theorem stepData (hs : l.state = .data) (cs : List Char) : (l.stepData cs).Streams := by
  unfold Lexer.stepData
  split
  · exact h.finish
  · left
    split
    · exact h.textReference hs _
    · split
      · exact h.goto trivial
      · exact ⟨h.unfinished, h.row, h.tag, by show l.state.Knowing _ _ _; rw [hs]; trivial⟩

theorem stepRawText {name : String} (hs : l.state = .rawText name) (cs : List Char) :
    (l.stepRawText name cs).Streams := by
  have hname : SpelledTagName name := by
    have hstate := h.state
    rwa [hs] at hstate
  unfold Lexer.stepRawText
  split
  · exact h.finish
  · left
    split
    · exact h.startTag (.inl hname)
    · exact ⟨h.unfinished, h.row, h.tag, by show l.state.Knowing _ _ _; rw [hs]; exact hname⟩

/-- A name begins where a letter is next. -/
theorem stepTagOpen : (l.stepTagOpen l.rest).Tidy := by
  unfold Lexer.stepTagOpen
  split
  · exact ⟨h.unfinished, h.row, h.tag, trivial⟩
  · next c cs heq =>
    split
    · exact h.declaration cs
    · split
      · exact h.goto trivial
      · split
        · next halpha => exact h.startTag (.inr ⟨rfl, c, cs, heq, halpha⟩)
        · split
          · exact ⟨h.unfinished, h.row, h.tag, by simp [startComment, LexState.Knowing]⟩
          · exact ⟨h.unfinished, h.row, h.tag, trivial⟩

theorem stepEndTagOpen : (l.stepEndTagOpen l.rest).Tidy := by
  unfold Lexer.stepEndTagOpen
  split
  · exact ⟨h.unfinished, h.row, h.tag, trivial⟩
  · next c cs heq =>
    split
    · next halpha => exact h.startTag (.inr ⟨rfl, c, cs, heq, halpha⟩)
    · split
      · exact h.goto trivial
      · exact ⟨h.unfinished, h.row, h.tag, by simp [startComment, LexState.Knowing]⟩

theorem stepComment (hs : l.state = .comment) : (l.stepComment l.rest).Streams := by
  have hcomment := h.state
  rw [hs] at hcomment
  unfold Lexer.stepComment
  split
  · have hremark : (l.remark .unterminatedComment).Tidy := ⟨h.unfinished, h.row, h.tag, h.state⟩
    exact (hremark.emitComment hcomment.not_within []).finish
  · exact .inl (h.emitComment hcomment.not_within _)
  · next c cs hopen heq =>
    refine .inl ⟨h.unfinished, h.row, h.tag, ?_⟩
    show l.state.Knowing l.tag (l.comment.push c) cs
    rw [hs]
    show Unclosed (l.comment.push c).toList cs
    rw [String.toList_push]
    rw [heq] at hcomment
    apply hcomment.push
    rintro ⟨back, hback⟩
    cases hback
    exact hopen back rfl rfl

theorem stepBogusComment (hs : l.state = .bogusComment) (cs : List Char) :
    (l.stepBogusComment cs).Streams := by
  have hcomment := h.state
  rw [hs] at hcomment
  unfold Lexer.stepBogusComment
  split
  · exact (h.emitComment (not_within_of_notMem hcomment) []).finish
  · left
    split
    · exact h.emitComment (not_within_of_notMem hcomment) _
    · next c cs hclose =>
      refine ⟨h.unfinished, h.row, h.tag, ?_⟩
      show l.state.Knowing l.tag (l.comment.push c) cs
      rw [hs]
      show '>' ∉ (l.comment.push c).toList
      rw [String.toList_push, List.mem_append, List.mem_singleton, not_or]
      exact ⟨hcomment, fun heq => hclose (beq_iff_eq.2 heq.symm)⟩

/-! ## 6. Steps inside of tags -/

/-- The name of the tag grows by what does not end it. -/
theorem stepTagName (hs : l.state = .tagName) : (l.stepTagName l.rest).Streams := by
  have hname := h.state
  rw [hs] at hname
  unfold Lexer.stepTagName
  split
  · exact h.abandonTag
  · next c cs heq =>
    change l.tag.Begun l.rest at hname
    rw [heq] at hname
    left
    split
    · next hblank => exact h.goto (hname.spelled (not_isAlpha_of_isBlank hblank))
    · next hblank =>
      split
      · next hslash => exact h.goto (hname.spelled (eq_of_beq hslash ▸ rfl))
      · next hslash =>
        split
        · next hclose => exact h.emitTag (hname.spelled (eq_of_beq hclose ▸ rfl)) cs
        · next hclose =>
          have hchar : isTagChar c.toLower = true := isTagChar_toLower (Bool.not_eq_true _ ▸ hblank)
            (fun heq => hslash (beq_iff_eq.2 heq)) fun heq => hclose (beq_iff_eq.2 heq)
          refine ⟨h.unfinished, h.row, ⟨h.tag.names, h.tag.distinct, h.tag.pending⟩, ?_⟩
          show l.state.Knowing _ _ cs
          rw [hs]
          exact .inl (hname.push hchar)

section inTag

variable (hname : SpelledTagName l.tag.name)
include hname

theorem stepBeforeAttributeName (cs : List Char) : (l.stepBeforeAttributeName cs).Tidy := by
  unfold Lexer.stepBeforeAttributeName
  split
  · exact h.goto hname
  · split
    · exact h.goto hname
    · split
      · exact h.goto hname
      · exact ⟨h.unfinished, h.row, h.tag.startAttribute, hname⟩

/-- The name of an attribute grows by what does not end it. -/
theorem stepAttributeName (hs : l.state = .attributeName) (cs : List Char) :
    (l.stepAttributeName cs).Tidy := by
  unfold Lexer.stepAttributeName
  split
  · exact h.goto hname
  · next c cs =>
    split
    · exact h.goto hname
    · next hend =>
      split
      · exact h.goto hname
      · next hequals =>
        have hchar : isAttributeChar c.toLower = true := by
          simp only [endsAttributeName, Bool.or_eq_true, beq_iff_eq, not_or,
            Bool.not_eq_true] at hend
          have hne : c.toLower ≠ '=' := toLower_ne rfl fun heq => hequals (beq_iff_eq.2 heq)
          simp [isAttributeChar, isTagChar_toLower hend.2 hend.1.1 hend.1.2, hne]
        exact ⟨h.unfinished, h.row, h.tag.pushName hchar,
          by show l.state.Knowing _ _ _; rw [hs]; exact hname⟩

theorem stepAfterAttributeName (cs : List Char) : (l.stepAfterAttributeName cs).Streams := by
  have hfinished := OpenTag.spelled_finishAttribute hname
  unfold Lexer.stepAfterAttributeName
  split
  · exact h.abandonTag
  · left
    split
    · exact h.goto hname
    · split
      · exact ⟨h.unfinished, h.row, h.tag.finishAttribute, hfinished⟩
      · split
        · exact h.goto hname
        · split
          · exact h.emitTag hname _
          · exact ⟨h.unfinished, h.row, h.tag.finishAttribute.startAttribute, hfinished⟩

theorem stepBeforeAttributeValue (cs : List Char) : (l.stepBeforeAttributeValue cs).Tidy := by
  unfold Lexer.stepBeforeAttributeValue
  split
  · exact h.goto hname
  · split
    · exact h.goto hname
    · split
      · exact h.goto hname
      · split
        · exact h.goto hname
        · split
          · exact h.emitTag hname _
          · exact h.goto hname

theorem stepAttributeValueQuoted {quote : Quote} (hs : l.state = .attributeValueQuoted quote)
    (cs : List Char) :
    (l.stepAttributeValueQuoted quote cs).Streams := by
  unfold Lexer.stepAttributeValueQuoted
  split
  · exact h.abandonTag
  · left
    split
    · exact ⟨h.unfinished, h.row, h.tag.finishAttribute, OpenTag.spelled_finishAttribute hname⟩
    · split
      · exact h.valueReference (fun _ _ _ => by rw [hs]; rfl) hname _
      · exact ⟨h.unfinished, h.row, h.tag.pushValue _,
          by show l.state.Knowing _ _ _; rw [hs]; exact hname⟩

theorem stepAttributeValueUnquoted (hs : l.state = .attributeValueUnquoted) (cs : List Char) :
    (l.stepAttributeValueUnquoted cs).Streams := by
  unfold Lexer.stepAttributeValueUnquoted
  split
  · exact h.abandonTag
  · left
    split
    · exact ⟨h.unfinished, h.row, h.tag.finishAttribute, OpenTag.spelled_finishAttribute hname⟩
    · split
      · exact h.valueReference (fun _ _ _ => by rw [hs]; rfl) hname _
      · split
        · exact h.emitTag hname _
        · exact ⟨h.unfinished, h.row, h.tag.pushValue _,
            by show l.state.Knowing _ _ _; rw [hs]; exact hname⟩

theorem stepAfterAttributeValueQuoted (cs : List Char) :
    (l.stepAfterAttributeValueQuoted cs).Streams := by
  unfold Lexer.stepAfterAttributeValueQuoted
  split
  · exact h.abandonTag
  · left
    split
    · exact h.goto hname
    · split
      · exact h.goto hname
      · split
        · exact h.emitTag hname _
        · exact h.goto hname

theorem stepSelfClosingStartTag
    (hs : ∀ tag comment rest, l.state.Knowing tag comment rest = SpelledTagName tag.name)
    (cs : List Char) : (l.stepSelfClosingStartTag cs).Streams := by
  unfold Lexer.stepSelfClosingStartTag
  split
  · exact h.abandonTag
  · left
    split
    · have hclosed : Tidy { l with tag := { l.tag with selfClosing := true } } :=
        ⟨h.unfinished, h.row, ⟨h.tag.names, h.tag.distinct, h.tag.pending⟩, by rw [hs]; exact hname⟩
      exact hclosed.emitTag hname _
    · exact h.goto hname

end inTag

/-! ## 7. Runs -/

theorem step : l.step.Streams := by
  have hstate := h.state
  unfold Lexer.step
  split
  next hs => exact h.stepData hs _
  next name hs => exact h.stepRawText hs _
  next hs => exact .inl h.stepTagOpen
  next hs => exact .inl h.stepEndTagOpen
  next hs => exact h.stepTagName hs
  next hs => exact .inl (h.stepBeforeAttributeName (by rwa [hs] at hstate) _)
  next hs => exact .inl (h.stepAttributeName (by rwa [hs] at hstate) hs _)
  next hs => exact h.stepAfterAttributeName (by rwa [hs] at hstate) _
  next hs => exact .inl (h.stepBeforeAttributeValue (by rwa [hs] at hstate) _)
  next quote hs => exact h.stepAttributeValueQuoted (by rwa [hs] at hstate) hs _
  next hs => exact h.stepAttributeValueUnquoted (by rwa [hs] at hstate) hs _
  next hs => exact h.stepAfterAttributeValueQuoted (by rwa [hs] at hstate) _
  next hs =>
    exact h.stepSelfClosingStartTag (by rwa [hs] at hstate) (fun _ _ _ => by rw [hs]; rfl) _
  next hs => exact h.stepComment hs
  next hs => exact h.stepBogusComment hs _

end Tidy

theorem tidy_ofString (html : String) : (ofString html).Tidy where
  unfinished := rfl
  row := openRow_nil
  tag := OpenTag.tidy_new "" false
  state := trivial

theorem Tidy.run {l : Lexer} (h : l.Tidy) : Stream l.run.tokens.toList := by
  have hstep : ∀ l : Lexer, l.finished = false → l.Streams → l.step.Streams := by
    intro l hfinished hl
    rcases hl with hl | ⟨hdone, -⟩
    · exact hl.step
    · rw [hdone] at hfinished
      cases hfinished
  obtain ⟨hwhole | ⟨-, hstream⟩, hfinished⟩ := run_of_step hstep (.inl h)
  · rw [hwhole.unfinished] at hfinished
    cases hfinished
  · exact hstream

end Lexer

/-- **Whatever text is read, the tokens are a stream.** -/
theorem stream_lex (html : String) : Stream (lex html).tokens.toList :=
  (Lexer.tidy_ofString html).run

end UniqueSelector.Markup
