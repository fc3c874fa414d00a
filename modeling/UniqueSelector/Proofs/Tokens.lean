import Mathlib
import UniqueSelector.Markup.Lexer.Run
import UniqueSelector.Proofs.WellFormed

/-!
# Tokens — what the lexer makes of texts without U+0000

Start tags begin with a letter, and no name or value has U+0000 in it: a reference to that character
stands for the replacement. Both hold in every state of the machine, so they hold at its end.
-/

namespace UniqueSelector.Markup

/-! ## 1. References -/

theorem charOf_ne_null (n : Nat) : charOf n ≠ '\x00' := by
  unfold charOf
  split
  · decide
  · next hzero =>
    split
    · next hvalid =>
      intro hnull
      have hnat := congrArg Char.toNat hnull
      rw [Char.toNat_ofNat, if_pos hvalid] at hnat
      exact hzero hnat
    · decide

theorem dropSemicolon_suffix (cs : List Char) : dropSemicolon cs <:+ cs := by
  unfold dropSemicolon
  split
  · exact List.suffix_cons _ _
  · exact List.suffix_refl _

/-- What a reference stands for is not U+0000, and what follows it is left as it is. -/
def Resolved.Sound (r : Resolved) (cs : List Char) : Prop := r.character ≠ '\x00' ∧ r.rest <:+ cs

theorem Resolved.sound_ampersand (cs : List Char) : (Resolved.ampersand cs).Sound cs :=
  ⟨show '&' ≠ '\x00' by decide, List.suffix_refl cs⟩

theorem resolveDigits_sound (base : Nat) (isDigit : Char → Bool) {whole cs : List Char}
    (h : cs <:+ whole) :
    (resolveDigits base isDigit whole cs).Sound whole := by
  unfold resolveDigits
  dsimp only
  split
  · exact Resolved.sound_ampersand whole
  · exact ⟨charOf_ne_null _,
      (dropSemicolon_suffix _).trans ((List.dropWhile_suffix isDigit).trans h)⟩

theorem resolveNumber_sound {whole cs : List Char} (h : cs <:+ whole) :
    (resolveNumber whole cs).Sound whole := by
  unfold resolveNumber
  split
  · exact resolveDigits_sound 16 isHexDigit ((List.suffix_cons _ _).trans h)
  · exact resolveDigits_sound 16 isHexDigit ((List.suffix_cons _ _).trans h)
  · exact resolveDigits_sound 10 Char.isDigit h

theorem namedReference_ne_null {known : NamedReference} (h : known ∈ namedReferences) :
    known.character ≠ '\x00' := by
  have hall : ∀ known ∈ namedReferences, known.character ≠ '\x00' := by decide
  exact hall known h

theorem resolveName_sound (inAttribute : Bool) (cs : List Char) :
    (resolveName inAttribute cs).Sound cs := by
  unfold resolveName
  dsimp only
  split
  · exact Resolved.sound_ampersand cs
  · split
    · next known hfound =>
      have hne := namedReference_ne_null (List.mem_of_find?_eq_some hfound)
      split
      · exact ⟨hne, (List.tail_suffix _).trans (List.drop_suffix _ _)⟩
      · split
        · exact ⟨hne, List.drop_suffix _ _⟩
        · exact Resolved.sound_ampersand cs
    · exact Resolved.sound_ampersand cs

theorem resolve_sound (inAttribute : Bool) (cs : List Char) :
    (resolve inAttribute cs).Sound cs := by
  unfold resolve
  split
  · exact resolveNumber_sound (List.suffix_cons _ _)
  · exact resolveName_sound inAttribute _

/-! ## 2. Tags -/

theorem push_nullFree {s : String} {c : Char} (hs : '\x00' ∉ s.toList) (hc : c ≠ '\x00') :
    '\x00' ∉ (s.push c).toList := by
  rw [String.toList_push, List.mem_append, List.mem_singleton]
  rintro (hmem | hnull)
  · exact hs hmem
  · exact hc hnull.symm

theorem toLower_ne_null {c : Char} (h : c ≠ '\x00') : c.toLower ≠ '\x00' :=
  fun hnull => h (eq_null_of_toLower hnull)

def StartsWithLetter (name : String) : Prop := name.toList.head?.any Char.isAlpha = true

instance (name : String) : Decidable (StartsWithLetter name) := inferInstanceAs (Decidable (_ = _))

theorem StartsWithLetter.exists_cons {name : String} (h : StartsWithLetter name) :
    ∃ c cs, name.toList = c :: cs ∧ c.isAlpha = true := by
  unfold StartsWithLetter at h
  cases hname : name.toList with
  | nil =>
    rw [hname] at h
    cases h
  | cons c cs =>
    rw [hname] at h
    exact ⟨c, cs, rfl, h⟩

theorem StartsWithLetter.push {name : String} (h : StartsWithLetter name) (c : Char) :
    StartsWithLetter (name.push c) := by
  obtain ⟨d, cs, hname, hd⟩ := h.exists_cons
  unfold StartsWithLetter
  rw [String.toList_push, hname]
  exact hd

theorem not_isAlpha_of_isBlank {c : Char} (h : isBlank c = true) : c.isAlpha = false := by
  unfold isBlank at h
  simp only [Bool.or_eq_true, beq_iff_eq] at h
  rcases h with (((rfl | rfl) | rfl) | rfl) | rfl <;> decide

def Token.Sound : Token → Prop
  | .startTag name _ attributes =>
    '\x00' ∉ name.toList ∧ StartsWithLetter name ∧ ∀ a ∈ attributes, a.NullFree
  | _ => True

namespace OpenTag

structure NullFree (tag : OpenTag) : Prop where
  name : '\x00' ∉ tag.name.toList
  attributes : ∀ a ∈ tag.attributes, a.NullFree
  pending : ∀ a ∈ tag.pending, a.NullFree

/-- The name of a start tag begins with a letter; an end tag may have any name. -/
def Lettered (tag : OpenTag) : Prop := tag.closing = true ∨ StartsWithLetter tag.name

variable {tag : OpenTag}

theorem nullFree_new (closing : Bool) : NullFree { closing } where
  name := show '\x00' ∉ "".toList by decide
  attributes _ h := by cases h
  pending _ h := by cases h

theorem NullFree.pushTagName (h : tag.NullFree) {c : Char} (hc : c ≠ '\x00') :
    NullFree { tag with name := tag.name.push c.toLower } where
  name := push_nullFree h.name (toLower_ne_null hc)
  attributes := h.attributes
  pending := h.pending

theorem NullFree.startAttribute (h : tag.NullFree) : tag.startAttribute.NullFree where
  name := h.name
  attributes := h.attributes
  pending a ha := by
    cases ha
    exact ⟨by decide, by decide⟩

theorem NullFree.pushName (h : tag.NullFree) {c : Char} (hc : c ≠ '\x00') :
    (tag.pushName c).NullFree where
  name := h.name
  attributes := h.attributes
  pending a ha := by
    obtain ⟨b, hb, rfl⟩ := Option.map_eq_some_iff.1 ha
    exact ⟨push_nullFree (h.pending b hb).1 (toLower_ne_null hc), (h.pending b hb).2⟩

theorem NullFree.pushValue (h : tag.NullFree) {c : Char} (hc : c ≠ '\x00') :
    (tag.pushValue c).NullFree where
  name := h.name
  attributes := h.attributes
  pending a ha := by
    obtain ⟨b, hb, rfl⟩ := Option.map_eq_some_iff.1 ha
    exact ⟨(h.pending b hb).1, push_nullFree (h.pending b hb).2 hc⟩

theorem finishAttribute_name (tag : OpenTag) : tag.finishAttribute.name = tag.name := by
  unfold finishAttribute
  split
  · rfl
  · split <;> rfl

theorem finishAttribute_closing (tag : OpenTag) : tag.finishAttribute.closing = tag.closing := by
  unfold finishAttribute
  split
  · rfl
  · split <;> rfl

theorem NullFree.finishAttribute (h : tag.NullFree) : tag.finishAttribute.NullFree := by
  unfold OpenTag.finishAttribute
  split
  · exact h
  · next a hpending =>
    split
    · exact ⟨h.name, h.attributes, fun _ ha => by cases ha⟩
    · refine ⟨h.name, fun b hb => ?_, fun _ ha => by cases ha⟩
      rcases List.mem_append.1 hb with hb | hb
      · exact h.attributes b hb
      · rw [List.mem_singleton.1 hb]
        exact h.pending a hpending

theorem Lettered.finishAttribute (h : tag.Lettered) : tag.finishAttribute.Lettered := by
  unfold Lettered
  rw [finishAttribute_name, finishAttribute_closing]
  exact h

section begins

variable {c : Char} {cs : List Char}
  (h : tag.Lettered ∨ (tag.name = "" ∧ ∃ d ds, c :: cs = d :: ds ∧ d.isAlpha = true))
include h

/-- A letter that is still to come is none of the characters that end a name. -/
theorem lettered_of_ended (hend : isBlank c = true ∨ c = '/' ∨ c = '>') : tag.Lettered := by
  refine h.resolve_right ?_
  rintro ⟨-, d, ds, hd, halpha⟩
  cases hd
  rcases hend with hblank | rfl | rfl
  · exact absurd halpha (by simp [not_isAlpha_of_isBlank hblank])
  · exact absurd halpha (by decide)
  · exact absurd halpha (by decide)

/-- The letter that was to come becomes the first one of the name. -/
theorem lettered_pushTagName : Lettered { tag with name := tag.name.push c.toLower } := by
  rcases h with (hclosing | hletter) | ⟨hempty, d, ds, hd, halpha⟩
  · exact .inl hclosing
  · exact .inr (hletter.push c.toLower)
  · cases hd
    right
    show (tag.name.push c.toLower).toList.head?.any Char.isAlpha = true
    rw [hempty, String.toList_push]
    exact c.isAlpha_toLower_eq_isAlpha.trans halpha

end begins

theorem token_sound (hnull : tag.NullFree) (hlettered : tag.Lettered) : tag.token.Sound := by
  unfold token
  by_cases hclosing : tag.closing = true
  · rw [if_pos hclosing]
    trivial
  · rw [if_neg hclosing]
    exact ⟨hnull.name, hlettered.resolve_left hclosing, hnull.attributes⟩

end OpenTag

/-! ## 3. The machine -/

/-- What a state knows of the tag being read: where its name begins, a letter is next; later the
name begins with one. -/
def LexState.Knows (tag : OpenTag) (rest : List Char) : LexState → Prop
  | .tagName => tag.Lettered ∨ (tag.name = "" ∧ ∃ c cs, rest = c :: cs ∧ c.isAlpha = true)
  | .beforeAttributeName | .attributeName | .afterAttributeName | .beforeAttributeValue
  | .attributeValueQuoted _ | .attributeValueUnquoted | .afterAttributeValueQuoted
  | .selfClosingStartTag => tag.Lettered
  | .rawText name => '\x00' ∉ name.toList
  | .data | .tagOpen | .endTagOpen | .comment | .bogusComment => True

namespace Lexer

/-- What has been read so far has no U+0000 in it, nor has what is left. -/
structure Sound (l : Lexer) : Prop where
  rest : '\x00' ∉ l.rest
  tokens : ∀ token ∈ l.tokens, token.Sound
  tag : l.tag.NullFree
  state : l.state.Knows l.tag l.rest

theorem notMem_of_suffix {cs rest : List Char} (h : '\x00' ∉ cs) (hrest : rest <:+ cs) :
    '\x00' ∉ rest :=
  fun hmem => h (hrest.subset hmem)

theorem dropEndTag?_suffix {name : String} {cs after : List Char}
    (h : dropEndTag? name cs = some after) :
    after <:+ cs := by
  unfold dropEndTag? at h
  split at h
  · exact (dropLetters?_suffix (Option.filter_eq_some_iff.1 h).1).trans (List.suffix_cons _ _)
  · cases h

theorem flushText_tag (l : Lexer) : l.flushText.tag = l.tag := by
  unfold flushText
  split <;> rfl

section emit

variable {P : Token → Prop} (htext : ∀ data, P (.text data)) {l : Lexer}
  (h : ∀ token ∈ l.tokens, P token)
include htext h

theorem mem_flushText : ∀ token ∈ l.flushText.tokens, P token := by
  unfold flushText
  split
  · exact h
  · intro token htoken
    rcases Array.mem_push.1 htoken with htoken | rfl
    · exact h token htoken
    · exact htext _

/-- What is true of the tokens so far and of a new one is true behind it, if it is true of
all texts. -/
theorem mem_emit {new : Token} (hnew : P new) : ∀ token ∈ (l.emit new).tokens, P token := by
  intro token htoken
  rcases Array.mem_push.1 htoken with htoken | rfl
  · exact mem_flushText htext h token htoken
  · exact hnew

end emit

/-- What every step of a lexer at work keeps is true at the end of a run. -/
theorem run_of_step {P : Lexer → Prop} (hstep : ∀ l, l.finished = false → P l → P l.step)
    {l : Lexer} (h : P l) :
    P l.run ∧ l.run.finished = true := by
  induction l using Lexer.run.induct with
  | case1 l hfinished =>
    unfold Lexer.run
    rw [if_pos hfinished]
    exact ⟨h, hfinished⟩
  | case2 l hfinished ih =>
    unfold Lexer.run
    rw [if_neg hfinished]
    exact ih (hstep l (Bool.not_eq_true _ ▸ hfinished) h)

namespace Sound

variable {l : Lexer} (h : l.Sound)
include h

/-- The character that is next, and what is behind it. -/
theorem rest_cons {c : Char} {cs : List Char} (hrest : l.rest = c :: cs) :
    '\x00' ∉ c :: cs ∧ c ≠ '\x00' ∧ '\x00' ∉ cs := by
  have hmem := h.rest
  rw [hrest, List.mem_cons, not_or] at hmem
  exact ⟨hrest ▸ h.rest, Ne.symm hmem.1, hmem.2⟩

theorem goto {state : LexState} {rest : List Char} (hrest : '\x00' ∉ rest)
    (hstate : state.Knows l.tag rest) :
    (l.goto state rest).Sound :=
  ⟨hrest, h.tokens, h.tag, hstate⟩

theorem emit (new : Token) (hnew : new.Sound) : (l.emit new).Sound where
  rest := by rw [emit_rest]; exact h.rest
  tokens := mem_emit (fun _ => trivial) h.tokens hnew
  tag := by
    show l.flushText.tag.NullFree
    rw [flushText_tag]
    exact h.tag
  state := by
    rw [emit_rest, emit_state]
    show l.state.Knows l.flushText.tag l.rest
    rw [flushText_tag]
    exact h.state

theorem finish : l.finish.Sound :=
  have hemit := h.emit .endOfFile trivial
  ⟨hemit.rest, hemit.tokens, hemit.tag, hemit.state⟩

theorem abandonTag : l.abandonTag.Sound :=
  Sound.finish (l := l.remark _) ⟨h.rest, h.tokens, h.tag, h.state⟩

theorem emitTag {rest : List Char} (hrest : '\x00' ∉ rest) (htag : l.tag.Lettered) :
    (l.emitTag rest).Sound where
  rest := hrest
  tokens := mem_emit (fun _ => trivial) h.tokens
    (OpenTag.token_sound h.tag.finishAttribute htag.finishAttribute)
  tag := OpenTag.nullFree_new false
  state := by
    show LexState.Knows _ _ l.tag.finishAttribute.nextState
    unfold OpenTag.nextState
    split
    · exact h.tag.finishAttribute.name
    · trivial

theorem emitComment {rest : List Char} (hrest : '\x00' ∉ rest) : (l.emitComment rest).Sound :=
  have hemit := h.emit (.comment l.comment) trivial
  ⟨hrest, hemit.tokens, hemit.tag, trivial⟩

theorem startComment {state : LexState} {rest : List Char} (hrest : '\x00' ∉ rest)
    (hstate : state.Knows l.tag rest) : (l.startComment state rest).Sound :=
  ⟨hrest, h.tokens, h.tag, hstate⟩

/-- A tag begins where a letter is next. -/
theorem startTag (closing : Bool) {c : Char} {cs : List Char} (hrest : l.rest = c :: cs)
    (hc : c.isAlpha = true) :
    (l.startTag closing).Sound where
  rest := h.rest
  tokens := h.tokens
  tag := OpenTag.nullFree_new closing
  state := .inr ⟨rfl, c, cs, hrest, hc⟩

theorem declaration {cs : List Char} (hcs : '\x00' ∉ cs) : (l.declaration cs).Sound := by
  unfold Lexer.declaration
  split
  · next cs =>
      exact h.startComment (notMem_of_suffix hcs (List.suffix_append ['-', '-'] cs)) trivial
  · split
    · exact h.startComment hcs trivial
    · next after hdoctype =>
      have hafter : '\x00' ∉ after := notMem_of_suffix hcs (dropLetters?_suffix hdoctype)
      apply (h.emit (.doctype _) trivial).goto
      · exact notMem_of_suffix hafter ((List.tail_suffix _).trans (List.dropWhile_suffix _))
      · trivial

theorem textReference {cs : List Char} (hcs : '\x00' ∉ cs) (hs : l.state = .data) :
    (l.textReference cs).Sound := by
  have hrest : '\x00' ∉ (resolve false cs).rest := notMem_of_suffix hcs (resolve_sound false cs).2
  have hstate : l.state.Knows l.tag (resolve false cs).rest := by
    rw [hs]
    trivial
  unfold Lexer.textReference
  dsimp only
  split
  · exact ⟨hrest, h.tokens, h.tag, hstate⟩
  · exact ⟨hrest, h.tokens, h.tag, hstate⟩

theorem valueReference {cs : List Char} (hcs : '\x00' ∉ cs)
    (hs : ∀ tag rest, l.state.Knows tag rest = tag.Lettered) (htag : l.tag.Lettered) :
    (l.valueReference cs).Sound := by
  have hrest : '\x00' ∉ (resolve true cs).rest := notMem_of_suffix hcs (resolve_sound true cs).2
  have hvalue : (l.tag.pushValue (resolve true cs).character).NullFree :=
    h.tag.pushValue (resolve_sound true cs).1
  have hstate : l.state.Knows (l.tag.pushValue (resolve true cs).character)
      (resolve true cs).rest := by
    rw [hs]
    exact htag
  unfold Lexer.valueReference
  dsimp only
  split
  · exact ⟨hrest, h.tokens, hvalue, hstate⟩
  · exact ⟨hrest, h.tokens, hvalue, hstate⟩

/-! ## 4. Steps outside of tags -/

theorem stepData (hs : l.state = .data) : (l.stepData l.rest).Sound := by
  unfold Lexer.stepData
  split
  · exact h.finish
  · next c cs heq =>
    obtain ⟨-, -, hcs⟩ := h.rest_cons heq
    split
    · exact h.textReference hcs hs
    · split
      · exact h.goto hcs trivial
      · exact ⟨hcs, h.tokens, h.tag, by show l.state.Knows l.tag cs; rw [hs]; trivial⟩

theorem stepRawText {name : String} (hs : l.state = .rawText name) :
    (l.stepRawText name l.rest).Sound := by
  have hname : '\x00' ∉ name.toList := by
    have hstate := h.state
    rwa [hs] at hstate
  unfold Lexer.stepRawText
  split
  · exact h.finish
  · next c cs heq =>
    obtain ⟨-, -, hcs⟩ := h.rest_cons heq
    split
    · next after hafter =>
      have hsuffix : after <:+ cs := by
        split at hafter
        · exact dropEndTag?_suffix hafter
        · cases hafter
      have htag : OpenTag.NullFree { name, closing := true } :=
        ⟨hname, (OpenTag.nullFree_new true).attributes, (OpenTag.nullFree_new true).pending⟩
      exact ⟨notMem_of_suffix hcs hsuffix, h.tokens, htag, .inl (.inl rfl)⟩
    · exact ⟨hcs, h.tokens, h.tag, by show l.state.Knows l.tag cs; rw [hs]; exact hname⟩

theorem stepTagOpen : (l.stepTagOpen l.rest).Sound := by
  unfold Lexer.stepTagOpen
  split
  · exact ⟨List.not_mem_nil, h.tokens, h.tag, trivial⟩
  · next c cs heq =>
    obtain ⟨hrest, -, hcs⟩ := h.rest_cons heq
    split
    · exact h.declaration hcs
    · split
      · exact h.goto hcs trivial
      · split
        · next halpha => exact h.startTag false heq halpha
        · split
          · exact h.startComment hrest trivial
          · exact ⟨hrest, h.tokens, h.tag, trivial⟩

theorem stepEndTagOpen : (l.stepEndTagOpen l.rest).Sound := by
  unfold Lexer.stepEndTagOpen
  split
  · exact ⟨List.not_mem_nil, h.tokens, h.tag, trivial⟩
  · next c cs heq =>
    obtain ⟨hrest, -, hcs⟩ := h.rest_cons heq
    split
    · next halpha => exact h.startTag true heq halpha
    · split
      · exact h.goto hcs trivial
      · exact h.startComment hrest trivial

theorem stepComment (hs : l.state = .comment) : (l.stepComment l.rest).Sound := by
  unfold Lexer.stepComment
  split
  · have hremark : (l.remark .unterminatedComment).Sound := ⟨h.rest, h.tokens, h.tag, h.state⟩
    exact (hremark.emitComment List.not_mem_nil).finish
  · next cs heq =>
    have hrest := h.rest
    rw [heq] at hrest
    exact h.emitComment (notMem_of_suffix hrest (List.suffix_append ['-', '-', '>'] cs))
  · next c cs _ heq =>
    obtain ⟨-, -, hcs⟩ := h.rest_cons heq
    exact ⟨hcs, h.tokens, h.tag, by show l.state.Knows l.tag cs; rw [hs]; trivial⟩

theorem stepBogusComment (hs : l.state = .bogusComment) : (l.stepBogusComment l.rest).Sound := by
  unfold Lexer.stepBogusComment
  split
  · exact (h.emitComment List.not_mem_nil).finish
  · next c cs heq =>
    obtain ⟨-, -, hcs⟩ := h.rest_cons heq
    split
    · exact h.emitComment hcs
    · exact ⟨hcs, h.tokens, h.tag, by show l.state.Knows l.tag cs; rw [hs]; trivial⟩

/-! ## 5. Steps inside of tags -/

theorem stepTagName (hs : l.state = .tagName) : (l.stepTagName l.rest).Sound := by
  have hname := h.state
  rw [hs] at hname
  unfold Lexer.stepTagName
  split
  · exact h.abandonTag
  · next c cs heq =>
    rw [heq] at hname
    obtain ⟨-, hc, hcs⟩ := h.rest_cons heq
    split
    · next hblank => exact h.goto hcs (OpenTag.lettered_of_ended hname (.inl hblank))
    · split
      · next hslash =>
          exact h.goto hcs (OpenTag.lettered_of_ended hname (.inr (.inl (eq_of_beq hslash))))
      · split
        · next hclose =>
            exact h.emitTag hcs (OpenTag.lettered_of_ended hname (.inr (.inr (eq_of_beq hclose))))
        · refine ⟨hcs, h.tokens, h.tag.pushTagName hc, ?_⟩
          show l.state.Knows _ cs
          rw [hs]
          exact .inl (OpenTag.lettered_pushTagName hname)

section inTag

variable (htag : l.tag.Lettered)
include htag

theorem stepBeforeAttributeName : (l.stepBeforeAttributeName l.rest).Sound := by
  unfold Lexer.stepBeforeAttributeName
  split
  · exact h.goto List.not_mem_nil htag
  · next c cs heq =>
    obtain ⟨hrest, -, hcs⟩ := h.rest_cons heq
    split
    · exact h.goto hcs htag
    · split
      · exact h.goto hrest htag
      · exact ⟨h.rest, h.tokens, h.tag.startAttribute, htag⟩

theorem stepAttributeName (hs : l.state = .attributeName) : (l.stepAttributeName l.rest).Sound := by
  unfold Lexer.stepAttributeName
  split
  · exact h.goto List.not_mem_nil htag
  · next c cs heq =>
    obtain ⟨hrest, hc, hcs⟩ := h.rest_cons heq
    split
    · exact h.goto hrest htag
    · split
      · exact h.goto hcs htag
      · exact ⟨hcs, h.tokens, h.tag.pushName hc, by show l.state.Knows _ cs; rw [hs]; exact htag⟩

theorem stepAfterAttributeName : (l.stepAfterAttributeName l.rest).Sound := by
  unfold Lexer.stepAfterAttributeName
  split
  · exact h.abandonTag
  · next c cs heq =>
    obtain ⟨-, -, hcs⟩ := h.rest_cons heq
    split
    · exact h.goto hcs htag
    · split
      · exact ⟨hcs, h.tokens, h.tag.finishAttribute, htag.finishAttribute⟩
      · split
        · exact h.goto hcs htag
        · split
          · exact h.emitTag hcs htag
          · exact ⟨h.rest, h.tokens, h.tag.finishAttribute.startAttribute, htag.finishAttribute⟩

theorem stepBeforeAttributeValue : (l.stepBeforeAttributeValue l.rest).Sound := by
  unfold Lexer.stepBeforeAttributeValue
  split
  · exact h.goto List.not_mem_nil htag
  · next c cs heq =>
    obtain ⟨hrest, -, hcs⟩ := h.rest_cons heq
    split
    · exact h.goto hcs htag
    · split
      · exact h.goto hcs htag
      · split
        · exact h.goto hcs htag
        · split
          · exact h.emitTag hcs htag
          · exact h.goto hrest htag

theorem stepAttributeValueQuoted {quote : Quote} (hs : l.state = .attributeValueQuoted quote) :
    (l.stepAttributeValueQuoted quote l.rest).Sound := by
  unfold Lexer.stepAttributeValueQuoted
  split
  · exact h.abandonTag
  · next c cs heq =>
    obtain ⟨-, hc, hcs⟩ := h.rest_cons heq
    split
    · exact ⟨hcs, h.tokens, h.tag.finishAttribute, htag.finishAttribute⟩
    · split
      · exact h.valueReference hcs (fun _ _ => by rw [hs]; rfl) htag
      · exact ⟨hcs, h.tokens, h.tag.pushValue hc, by show l.state.Knows _ cs; rw [hs]; exact htag⟩

theorem stepAttributeValueUnquoted (hs : l.state = .attributeValueUnquoted) :
    (l.stepAttributeValueUnquoted l.rest).Sound := by
  unfold Lexer.stepAttributeValueUnquoted
  split
  · exact h.abandonTag
  · next c cs heq =>
    obtain ⟨-, hc, hcs⟩ := h.rest_cons heq
    split
    · exact ⟨hcs, h.tokens, h.tag.finishAttribute, htag.finishAttribute⟩
    · split
      · exact h.valueReference hcs (fun _ _ => by rw [hs]; rfl) htag
      · split
        · exact h.emitTag hcs htag
        · exact ⟨hcs, h.tokens, h.tag.pushValue hc, by show l.state.Knows _ cs; rw [hs]; exact htag⟩

theorem stepAfterAttributeValueQuoted : (l.stepAfterAttributeValueQuoted l.rest).Sound := by
  unfold Lexer.stepAfterAttributeValueQuoted
  split
  · exact h.abandonTag
  · next c cs heq =>
    obtain ⟨hrest, -, hcs⟩ := h.rest_cons heq
    split
    · exact h.goto hcs htag
    · split
      · exact h.goto hcs htag
      · split
        · exact h.emitTag hcs htag
        · exact h.goto hrest htag

theorem stepSelfClosingStartTag : (l.stepSelfClosingStartTag l.rest).Sound := by
  unfold Lexer.stepSelfClosingStartTag
  split
  · exact h.abandonTag
  · next c cs heq =>
    obtain ⟨hrest, -, hcs⟩ := h.rest_cons heq
    split
    · have hclosed : Sound { l with tag := { l.tag with selfClosing := true } } := by
        refine ⟨h.rest, h.tokens, ⟨h.tag.name, h.tag.attributes, h.tag.pending⟩, ?_⟩
        have hstate := h.state
        unfold LexState.Knows at hstate ⊢
        exact hstate
      exact hclosed.emitTag hcs htag
    · exact h.goto hrest htag

end inTag

/-! ## 6. Runs -/

theorem step : l.step.Sound := by
  have hstate := h.state
  unfold Lexer.step
  split
  next hs => exact h.stepData hs
  next name hs => exact h.stepRawText hs
  next hs => exact h.stepTagOpen
  next hs => exact h.stepEndTagOpen
  next hs => exact h.stepTagName hs
  next hs => exact h.stepBeforeAttributeName (by rwa [hs] at hstate)
  next hs => exact h.stepAttributeName (by rwa [hs] at hstate) hs
  next hs => exact h.stepAfterAttributeName (by rwa [hs] at hstate)
  next hs => exact h.stepBeforeAttributeValue (by rwa [hs] at hstate)
  next quote hs => exact h.stepAttributeValueQuoted (by rwa [hs] at hstate) hs
  next hs => exact h.stepAttributeValueUnquoted (by rwa [hs] at hstate) hs
  next hs => exact h.stepAfterAttributeValueQuoted (by rwa [hs] at hstate)
  next hs => exact h.stepSelfClosingStartTag (by rwa [hs] at hstate)
  next hs => exact h.stepComment hs
  next hs => exact h.stepBogusComment hs

end Sound

theorem sound_ofString {html : String} (h : '\x00' ∉ html.toList) : (ofString html).Sound where
  rest := h
  tokens token htoken := by simp [ofString] at htoken
  tag := OpenTag.nullFree_new false
  state := trivial

theorem Sound.run {l : Lexer} (h : l.Sound) : l.run.Sound := (run_of_step (fun _ _ h => h.step) h).1

end Lexer

/-- **The start tags of a text without U+0000 begin with letters** and have no U+0000 in them. -/
theorem tokens_sound {html : String} (h : '\x00' ∉ html.toList) :
    ∀ token ∈ (lex html).tokens, token.Sound :=
  (Lexer.sound_ofString h).run.tokens

end UniqueSelector.Markup
