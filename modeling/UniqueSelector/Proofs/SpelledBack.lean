import UniqueSelector.Proofs.Spelling

/-!
# Spelled back — a row of tokens is read as it was written

Each part of a token takes the lexer from one state to another and leaves what follows to be read,
whatever that is. Between two tokens nothing is left over but the text that has gathered, so tokens
can be read one after another.
-/

namespace UniqueSelector.Markup

/-- A reference by name that is closed is read as its character, in texts and in values. -/
theorem resolve_named {known : NamedReference} (h : known ∈ namedReferences) (inAttribute : Bool)
    (cs : List Char) :
    resolve inAttribute (known.name.toList ++ ';' :: cs) = ⟨known.character, cs, none⟩ := by
  simp only [namedReferences, List.mem_cons, List.not_mem_nil, or_false] at h
  rcases h
    with rfl | rfl | rfl | rfl | rfl | rfl | rfl | rfl | rfl | rfl | rfl | rfl | rfl | rfl <;> rfl

theorem push_append (text : String) (c : Char) (s : List Char) :
    text.push c ++ String.ofList s = text ++ String.ofList (c :: s) := by
  rw [← String.toList_inj]
  simp

/-- What is dropped is the word up to the case of its letters. -/
theorem dropLetters?_eq_some {word cs after : List Char} : dropLetters? word cs = some after ↔
    ∃ front, cs = front ++ after ∧ front.map Char.toLower = word.map Char.toLower := by
  induction word generalizing cs with
  | nil =>
    rw [dropLetters?, Option.some.injEq]
    constructor
    · rintro rfl
      exact ⟨[], rfl, rfl⟩
    · rintro ⟨front, rfl, hfront⟩
      rw [List.map_eq_nil_iff.1 hfront]
      rfl
  | cons w word ih =>
    cases cs with
    | nil =>
      rw [dropLetters?]
      constructor
      · intro h
        cases h
      · rintro ⟨front, hfront, hletters⟩
        rw [(List.append_eq_nil_iff.1 hfront.symm).1] at hletters
        cases hletters
    | cons c cs =>
      rw [dropLetters?]
      by_cases hletter : w.toLower = c.toLower
      · rw [if_pos (by simpa using hletter), ih]
        constructor
        · rintro ⟨front, rfl, hfront⟩
          exact ⟨c :: front, rfl, by rw [List.map_cons, List.map_cons, hletter, hfront]⟩
        · rintro ⟨front, hfront, hletters⟩
          cases front with
          | nil => cases hletters
          | cons d front =>
            cases hfront
            exact ⟨front, rfl, (List.cons.inj hletters).2⟩
      · rw [if_neg (by simpa using hletter)]
        refine iff_of_false (fun h => by cases h) ?_
        rintro ⟨front, hfront, hletters⟩
        cases front with
        | nil => cases hletters
        | cons d front =>
          cases hfront
          exact hletter (List.cons.inj hletters).1.symm

theorem isTagChar_iff {c : Char} :
    isTagChar c = true ↔ c.isUpper = false ∧ isBlank c = false ∧ c ≠ '/' ∧ c ≠ '>' := by
  simp [isTagChar, and_assoc]

theorem toLower_of_isTagChar {c : Char} (h : isTagChar c = true) : c.toLower = c := by
  obtain ⟨hupper, -⟩ := isTagChar_iff.1 h
  exact Char.toLower_eq_of_not_isUpper (by simpa using hupper)

/-- Names of raw text elements are in lower case and hold no bracket. -/
theorem rawTextElements_plain {name : String} (h : name ∈ rawTextElements) :
    name.toList.map Char.toLower = name.toList ∧ '<' ∉ name.toList := by
  have hall : ∀ name ∈ rawTextElements, name.toList.map Char.toLower = name.toList ∧
      '<' ∉ name.toList := by decide
  exact hall name h

namespace Lexer

/-- The characters join the text that has gathered. -/
def addText (l : Lexer) (s : List Char) : Lexer := { l with text := l.text ++ String.ofList s }

/-- The lexer inside of a tag. -/
def within (l : Lexer) (tag : OpenTag) : Lexer := { l with tag }

/-- The tokens so far, the text that has gathered among them. -/
def known (l : Lexer) : Array Token :=
  if l.text.isEmpty then l.tokens else l.tokens.push (.text l.text)

theorem emit_eq (l : Lexer) (t : Token) :
    l.emit t = { l with tokens := l.known.push t, text := "" } := by
  rw [emit, flushText, known]
  split
  · next hempty =>
    have htext : l.text = "" := String.isEmpty_iff.1 hempty
    rw [← htext]
  · rfl

theorem known_of_text {l : Lexer} (h : l.text = "") : l.known = l.tokens := by
  rw [known, h]
  rfl

section run

variable {l : Lexer} (hl : l.finished = false)
include hl

/-! ## 1. Steps of a run -/

theorem run_goto (state : LexState) (cs : List Char) :
    (l.goto state cs).run = (l.goto state cs).step.run := by
  rw [run, if_neg]
  rw [Bool.not_eq_true]
  exact hl

theorem run_within (tag : OpenTag) (state : LexState) (cs : List Char) :
    ((l.within tag).goto state cs).run = ((l.within tag).goto state cs).step.run :=
  run_goto (l := l.within tag) hl state cs

/-! ## 2. Texts -/

theorem run_plain {c : Char} (hamp : c ≠ '&') (hopen : c ≠ '<') (cs : List Char) :
    (l.goto .data (c :: cs)).run = ((l.pushText c).goto .data cs).run := by
  rw [run_goto hl]
  show (Lexer.stepData _ (c :: cs)).run = _
  rw [stepData, if_neg (by simpa using hamp), if_neg (by simpa using hopen)]
  rfl

theorem run_textReference {known : NamedReference} (h : known ∈ namedReferences) (cs : List Char) :
    (l.goto .data ('&' :: (known.name.toList ++ ';' :: cs))).run =
      ((l.pushText known.character).goto .data cs).run := by
  rw [run_goto hl]
  show (Lexer.textReference _ (known.name.toList ++ ';' :: cs)).run = _
  rw [textReference, resolve_named h]
  rfl

/-- What is written by its name is read as the character. -/
theorem run_escapeText (c : Char) (cs : List Char) :
    (l.goto .data (escapeText c ++ cs)).run = ((l.pushText c).goto .data cs).run := by
  rw [escapeText]
  split
  · next hc =>
    subst hc
    exact run_textReference hl (.head _ : ⟨"amp", '&', true⟩ ∈ namedReferences) cs
  · split
    · next hc =>
      subst hc
      exact run_textReference hl (.tail _ (.head _) : ⟨"lt", '<', true⟩ ∈ namedReferences) cs
    · next hamp hopen => exact run_plain hl hamp hopen cs

omit hl in
theorem run_text (s cs : List Char) (hl : l.finished = false) :
    (l.goto .data (s.flatMap escapeText ++ cs)).run = ((l.addText s).goto .data cs).run := by
  induction s generalizing l with
  | nil => rw [addText, String.ofList_nil, String.append_empty]; rfl
  | cons c s ih =>
    rw [List.flatMap_cons, List.append_assoc, run_escapeText hl, ih (l := l.pushText c) hl, addText,
      addText, ← push_append]
    rfl

end run

/-! ## 3. Raw texts -/

/-- An end tag that begins in a raw text is not the one behind it: a name has no bracket in it. -/
theorem dropEndTag?_of_not_beginsEndTag {name : String} (hname : name ∈ rawTextElements)
    {s : List Char} (hs : beginsEndTag name ('<' :: s) = false) (cs : List Char) :
    dropEndTag? name (s ++ '<' :: cs) = none := by
  obtain ⟨hlower, hbracket⟩ := rawTextElements_plain hname
  cases s with
  | nil => rfl
  | cons c s =>
    by_cases hc : c = '/'
    · subst hc
      show (dropLetters? name.toList (s ++ '<' :: cs)).filter _ = none
      rw [Option.filter_eq_none_iff]
      intro after hafter
      obtain ⟨front, hsplit, hfront⟩ := dropLetters?_eq_some.1 hafter
      rw [hlower] at hfront
      rcases List.append_eq_append_iff.1 hsplit with ⟨beyond, rfl, hbeyond⟩ | ⟨inner, rfl, rfl⟩
      · cases beyond with
        | nil =>
          cases hbeyond
          exact Bool.false_ne_true
        | cons d beyond =>
          -- The name would reach beyond the text.
          cases hbeyond
          refine absurd ?_ hbracket
          rw [← hfront]
          simp
      · cases inner with
        | nil => exact Bool.false_ne_true
        | cons d inner =>
          have hlength : name.toList.length = front.length := by rw [← hfront, List.length_map]
          rw [beginsEndTag, hlength, List.take_left, List.drop_left, hfront] at hs
          have hend : (isBlank d || d == '/' || d == '>') = false := by simpa using hs
          show ¬(d == '/' || d == '>' || isBlank d) = true
          rw [Bool.or_comm, ← Bool.or_assoc, hend]
          exact Bool.false_ne_true
    · rw [List.cons_append, dropEndTag?]
      intro rest hrest
      cases hrest
      exact hc rfl

section run

variable {l : Lexer} (hl : l.finished = false)
include hl

theorem run_verbatim {name : String} {c : Char} {cs : List Char}
    (h : c = '<' → dropEndTag? name cs = none) :
    (l.goto (.rawText name) (c :: cs)).run = ((l.pushText c).goto (.rawText name) cs).run := by
  have hnone : (if c == '<' then dropEndTag? name cs else none) = none := by
    split
    · next hc => exact h (by simpa using hc)
    · rfl
  rw [run_goto hl]
  show (Lexer.stepRawText _ name (c :: cs)).run = _
  rw [stepRawText, hnone]
  rfl

/-- A raw text is read as it is, up to a bracket behind it. -/
theorem run_rawText {name : String} (hname : name ∈ rawTextElements) {s : List Char}
    (hs : ∀ part ∈ s.tails, beginsEndTag name part = false) (cs : List Char) :
    (l.goto (.rawText name) (s ++ '<' :: cs)).run =
      ((l.addText s).goto (.rawText name) ('<' :: cs)).run := by
  induction s generalizing l with
  | nil => rw [addText, String.ofList_nil, String.append_empty]; rfl
  | cons c s ih =>
    rw [List.tails_cons, List.forall_mem_cons] at hs
    have hstep : c = '<' → dropEndTag? name (s ++ '<' :: cs) = none := by
      rintro rfl
      exact dropEndTag?_of_not_beginsEndTag hname hs.1 cs
    rw [List.cons_append, run_verbatim hl hstep, ih (l := l.pushText c) hl hs.2, addText, addText,
      ← push_append]
    rfl

/-- The end tag of the element is read as one. -/
theorem run_rawEndTag {name : String} (cs : List Char) :
    (l.goto (.rawText name) ('<' :: '/' :: (name.toList ++ '>' :: cs))).run =
      ((l.within { name, closing := true }).goto .tagName ('>' :: cs)).run := by
  have hdrop : dropLetters? name.toList (name.toList ++ '>' :: cs) = some ('>' :: cs) :=
    dropLetters?_eq_some.2 ⟨name.toList, rfl, rfl⟩
  have hend : dropEndTag? name ('/' :: (name.toList ++ '>' :: cs)) = some ('>' :: cs) := by
    rw [dropEndTag?, hdrop]
    rfl
  rw [run_goto hl]
  show (Lexer.stepRawText _ name ('<' :: '/' :: (name.toList ++ '>' :: cs))).run = _
  rw [stepRawText, if_pos (by decide), hend]
  rfl

end run

/-! ## 4. Tags -/

/-- The states in front of an attribute or of the end of a tag. -/
def Between (state : LexState) : Prop := state = .tagName ∨ state = .afterAttributeValueQuoted

section run

variable {l : Lexer} (hl : l.finished = false) {tag : OpenTag} {state : LexState}
include hl

theorem run_openTag {c : Char} (hc : c.isAlpha = true) (cs : List Char) :
    (l.goto .data ('<' :: c :: cs)).run = ((l.within {}).goto .tagName (c :: cs)).run := by
  have hbang : c ≠ '!' := by
    rintro rfl
    exact absurd hc (by decide)
  have hslash : c ≠ '/' := by
    rintro rfl
    exact absurd hc (by decide)
  rw [run_goto hl]
  show (l.goto .tagOpen (c :: cs)).run = _
  rw [run_goto hl]
  show (Lexer.stepTagOpen _ (c :: cs)).run = _
  rw [stepTagOpen, if_neg (by simpa using hbang), if_neg (by simpa using hslash), if_pos hc]
  rfl

theorem run_openEndTag {c : Char} (hc : c.isAlpha = true) (cs : List Char) :
    (l.goto .data ('<' :: '/' :: c :: cs)).run =
      ((l.within { closing := true }).goto .tagName (c :: cs)).run := by
  rw [run_goto hl]
  show (l.goto .tagOpen ('/' :: c :: cs)).run = _
  rw [run_goto hl]
  show (l.goto .endTagOpen (c :: cs)).run = _
  rw [run_goto hl]
  show (Lexer.stepEndTagOpen _ (c :: cs)).run = _
  rw [stepEndTagOpen, if_pos hc]
  rfl

omit hl in
theorem run_tagName {name : List Char} (hname : ∀ c ∈ name, isTagChar c = true) (cs : List Char)
    (hl : l.finished = false) :
    ((l.within tag).goto .tagName (name ++ cs)).run =
      ((l.within { tag with name := tag.name ++ String.ofList name }).goto .tagName cs).run := by
  induction name generalizing tag with
  | nil => rw [String.ofList_nil, String.append_empty]; rfl
  | cons c name ih =>
    rw [List.forall_mem_cons] at hname
    obtain ⟨-, hblank, hslash, hclose⟩ := isTagChar_iff.1 hname.1
    rw [List.cons_append, run_within hl]
    show (Lexer.stepTagName _ (c :: (name ++ cs))).run = _
    rw [stepTagName, if_neg (by simpa using hblank), if_neg (by simpa using hslash),
      if_neg (by simpa using hclose)]
    show ((l.within { tag with name := tag.name.push c.toLower }).goto .tagName
      (name ++ cs)).run = _
    rw [toLower_of_isTagChar hname.1, ih hname.2]
    dsimp only
    rw [push_append]

theorem run_attributeName {name : List Char} (hname : ∀ c ∈ name, (isTagChar c && c != '=') = true)
    (before value : String) (cs : List Char) :
    ((l.within { tag with pending := some ⟨before, value⟩ }).goto .attributeName (name ++ cs)).run =
      ((l.within { tag with pending := some ⟨before ++ String.ofList name, value⟩ }).goto
        .attributeName cs).run := by
  induction name generalizing before with
  | nil => rw [String.ofList_nil, String.append_empty]; rfl
  | cons c name ih =>
    rw [List.forall_mem_cons] at hname
    obtain ⟨hc, hequals⟩ := Bool.and_eq_true_iff.1 hname.1
    obtain ⟨-, hblank, hslash, hclose⟩ := isTagChar_iff.1 hc
    have hgoes : endsAttributeName c = false := by simp [endsAttributeName, hslash, hclose, hblank]
    rw [List.cons_append, run_within hl]
    show (Lexer.stepAttributeName _ (c :: (name ++ cs))).run = _
    rw [stepAttributeName, hgoes, if_neg Bool.false_ne_true, if_neg (by simpa using hequals)]
    show ((l.within { tag with pending := some ⟨before.push c.toLower, value⟩ }).goto .attributeName
      (name ++ cs)).run = _
    rw [toLower_of_isTagChar hc, ih hname.2, push_append]

theorem run_valueReference {known : NamedReference} (h : known ∈ namedReferences)
    (name value : String) (cs : List Char) :
    ((l.within { tag with pending := some ⟨name, value⟩ }).goto (.attributeValueQuoted .double)
        ('&' :: (known.name.toList ++ ';' :: cs))).run =
      ((l.within { tag with pending := some ⟨name, value.push known.character⟩ }).goto
        (.attributeValueQuoted .double) cs).run := by
  rw [run_within hl]
  show (Lexer.valueReference _ (known.name.toList ++ ';' :: cs)).run = _
  rw [valueReference, resolve_named h]
  rfl

/-- What is written by its name is read as the character, in front of the quote that closes
the value. -/
theorem run_escapeValue (name value : String) (c : Char) (cs : List Char) :
    ((l.within { tag with pending := some ⟨name, value⟩ }).goto (.attributeValueQuoted .double)
        (escapeValue c ++ cs)).run =
      ((l.within { tag with pending := some ⟨name, value.push c⟩ }).goto
        (.attributeValueQuoted .double) cs).run := by
  rw [escapeValue]
  split
  · next hc =>
    subst hc
    exact run_valueReference hl (.head _ : ⟨"amp", '&', true⟩ ∈ namedReferences) name value cs
  · split
    · next hc =>
      subst hc
      have hquot : ⟨"quot", '"', true⟩ ∈ namedReferences := .tail _ (.tail _ (.tail _ (.head _)))
      exact run_valueReference hl hquot name value cs
    · next hamp hquote =>
      rw [List.singleton_append, run_within hl]
      show (Lexer.stepAttributeValueQuoted _ .double (c :: cs)).run = _
      rw [stepAttributeValueQuoted, if_neg (by simpa [Quote.char] using hquote),
        if_neg (by simpa using hamp)]
      rfl

theorem run_value (name value : String) (s cs : List Char) :
    ((l.within { tag with pending := some ⟨name, value⟩ }).goto (.attributeValueQuoted .double)
        (s.flatMap escapeValue ++ cs)).run =
      ((l.within { tag with pending := some ⟨name, value ++ String.ofList s⟩ }).goto
        (.attributeValueQuoted .double) cs).run := by
  induction s generalizing value with
  | nil => rw [String.ofList_nil, String.append_empty]; rfl
  | cons c s ih => rw [List.flatMap_cons, List.append_assoc, run_escapeValue hl, ih, push_append]

theorem run_blank (hstate : Between state) (cs : List Char) :
    ((l.within tag).goto state (' ' :: cs)).run =
      ((l.within tag).goto .beforeAttributeName cs).run := by
  rw [run_within hl]
  rcases hstate with rfl | rfl <;> rfl

/-- The first character of a name is left where it is. -/
theorem run_beforeAttributeName {name : String} (hname : SpelledAttributeName name)
    (cs : List Char) :
    ((l.within tag).goto .beforeAttributeName (name.toList ++ cs)).run =
      ((l.within tag.startAttribute).goto .attributeName (name.toList ++ cs)).run := by
  obtain ⟨hne, hchars⟩ := hname
  cases hlist : name.toList with
  | nil => exact absurd (String.toList_eq_nil_iff.1 hlist) hne
  | cons c rest =>
    rw [hlist, List.forall_mem_cons] at hchars
    obtain ⟨-, hblank, hslash, hclose⟩ := isTagChar_iff.1 (Bool.and_eq_true_iff.1 hchars.1).1
    rw [List.cons_append, run_within hl]
    show (Lexer.stepBeforeAttributeName _ (c :: (rest ++ cs))).run = _
    rw [stepBeforeAttributeName, if_neg (by simpa using hblank), if_neg (by simp [hslash, hclose])]
    rfl

/-- An attribute with a new name joins the others. -/
theorem run_attribute {a : Attribute} (ha : SpelledAttributeName a.name)
    (hnew : a.name ∉ tag.attributes.map Attribute.name) (hpending : tag.pending = none)
    (hstate : Between state) (cs : List Char) :
    ((l.within tag).goto state (spellAttribute a ++ cs)).run =
      ((l.within { tag with attributes := tag.attributes ++ [a] }).goto
        .afterAttributeValueQuoted cs).run := by
  have hfinish : OpenTag.finishAttribute { tag with pending := some a } =
      { tag with attributes := tag.attributes ++ [a] } := by
    have hname : a.name.isEmpty = false := by
      rw [Bool.eq_false_iff]
      exact fun hempty => ha.1 (String.isEmpty_iff.1 hempty)
    have hany : tag.attributes.any (·.name == a.name) = false := by
      rw [Bool.eq_false_iff, ne_eq, List.any_eq_true]
      rintro ⟨b, hb, heq⟩
      exact hnew (List.mem_map.2 ⟨b, hb, eq_of_beq heq⟩)
    rw [OpenTag.finishAttribute]
    simp only [hname, hany, Bool.or_self, hpending]
    rfl
  let named : OpenTag := { tag with pending := some ⟨a.name, ""⟩ }
  rw [spellAttribute, List.cons_append, run_blank hl hstate, List.append_assoc,
    run_beforeAttributeName hl ha, OpenTag.startAttribute, run_attributeName hl ha.2,
    String.empty_append, String.ofList_toList, run_within hl]
  show ((l.within named).goto .beforeAttributeValue
    ('"' :: (a.value.toList.flatMap escapeValue ++ ['"'] ++ cs))).run = _
  rw [run_within hl]
  show ((l.within named).goto (.attributeValueQuoted .double)
    (a.value.toList.flatMap escapeValue ++ ['"'] ++ cs)).run = _
  rw [List.append_assoc, run_value hl, run_within hl, String.empty_append, String.ofList_toList]
  show ((l.within (OpenTag.finishAttribute { tag with pending := some a })).goto
    .afterAttributeValueQuoted cs).run = _
  rw [hfinish]

/-- Attributes with distinct names are read one after another. -/
theorem run_attributes {as : List Attribute} (has : ∀ a ∈ as, SpelledAttributeName a.name)
    (hnames : ((tag.attributes ++ as).map Attribute.name).Nodup) (hpending : tag.pending = none)
    (hstate : Between state) (cs : List Char) :
    ∃ state', Between state' ∧ ((l.within tag).goto state (as.flatMap spellAttribute ++ cs)).run =
      ((l.within { tag with attributes := tag.attributes ++ as }).goto state' cs).run := by
  induction as generalizing tag state with
  | nil => exact ⟨state, hstate, by rw [List.append_nil]; rfl⟩
  | cons a as ih =>
    rw [List.forall_mem_cons] at has
    have hnew : a.name ∉ tag.attributes.map Attribute.name := by
      rw [List.map_append, List.nodup_append] at hnames
      exact fun hmem => hnames.2.2 a.name hmem a.name (.head _) rfl
    have hnames' : ((tag.attributes ++ [a] ++ as).map Attribute.name).Nodup := by simpa using hnames
    have hrest := @ih { tag with attributes := tag.attributes ++ [a] } .afterAttributeValueQuoted
      has.2 hnames' hpending (.inr rfl)
    obtain ⟨state', hstate', hrun⟩ := hrest
    refine ⟨state', hstate', ?_⟩
    rw [List.flatMap_cons, List.append_assoc, run_attribute hl has.1 hnew hpending hstate, hrun,
      List.append_assoc]
    rfl

omit hl in
/-- A tag that is complete becomes a token. -/
theorem emitTag_within (hpending : tag.pending = none) (state : LexState) (cs rest : List Char) :
    ((l.within tag).goto state cs).emitTag rest =
      { l with tokens := l.known.push tag.token, text := "", tag := {} }.goto
        tag.nextState rest := by
  have hfinish : tag.finishAttribute = tag := by rw [OpenTag.finishAttribute, hpending]
  rw [emitTag, emit_eq]
  show { l with tokens := l.known.push tag.finishAttribute.token, text := "", tag := {} }.goto
    tag.finishAttribute.nextState rest = _
  rw [hfinish]

theorem run_closeTag (hpending : tag.pending = none) (hstate : Between state) (cs : List Char) :
    ((l.within tag).goto state ('>' :: cs)).run =
      ({ l with tokens := l.known.push tag.token, text := "", tag := {} }.goto
        tag.nextState cs).run := by
  have hstep : ((l.within tag).goto state ('>' :: cs)).step =
      ((l.within tag).goto state ('>' :: cs)).emitTag cs := by
    rcases hstate with rfl | rfl <;> rfl
  rw [run_within hl, hstep, emitTag_within hpending]

theorem run_closeSelfClosingTag (hpending : tag.pending = none) (hstate : Between state)
    (cs : List Char) :
    ((l.within tag).goto state ('/' :: '>' :: cs)).run =
      ({ l with
          tokens := l.known.push { tag with selfClosing := true }.token
          text := "", tag := {} }.goto { tag with selfClosing := true }.nextState cs).run := by
  have hstep : ((l.within tag).goto state ('/' :: '>' :: cs)).step =
      (l.within tag).goto .selfClosingStartTag ('>' :: cs) := by
    rcases hstate with rfl | rfl <;> rfl
  rw [run_within hl, hstep, run_within hl]
  show (((l.within { tag with selfClosing := true }).goto .selfClosingStartTag
    ('>' :: cs)).emitTag cs).run = _
  exact congrArg run
    (@emitTag_within l { tag with selfClosing := true } hpending .selfClosingStartTag _ cs)

end run

/-! ## 5. Comments and document types -/

/-- Only the mark itself ends a comment, wherever it would have to begin. -/
theorem stepComment_inside (l : Lexer) {c : Char} {data : List Char}
    (h : ¬"-->".toList <+: c :: data) (cs : List Char) :
    l.stepComment (c :: (data ++ ("-->".toList ++ cs))) =
      { l with comment := l.comment.push c, rest := data ++ ("-->".toList ++ cs) } := by
  rw [stepComment]
  rintro rest rfl hrest
  -- The mark behind the data begins with two hyphens, so it does not complete another one.
  cases data with
  | nil => cases hrest
  | cons d data =>
    cases data with
    | nil => cases hrest
    | cons e data =>
      cases hrest
      exact h ⟨data, rfl⟩

section run

variable {l : Lexer} (hl : l.finished = false)
include hl

theorem run_insideComment {data : List Char} (hdata : ¬"-->".toList <:+: data) (before : String)
    (cs : List Char) :
    ({ l with comment := before }.goto .comment (data ++ ("-->".toList ++ cs))).run =
      ({ l with
          tokens := l.known.push (.comment (before ++ String.ofList data))
          text := "", comment := "" }.goto .data cs).run := by
  induction data generalizing before with
  | nil =>
    rw [run_goto (l := { l with comment := before }) hl]
    show (Lexer.emitComment _ cs).run = _
    rw [emitComment, emit_eq, String.ofList_nil, String.append_empty]
    rfl
  | cons c data ih =>
    rw [List.infix_cons_iff, not_or] at hdata
    rw [List.cons_append, run_goto (l := { l with comment := before }) hl]
    show (Lexer.stepComment _ (c :: (data ++ ("-->".toList ++ cs)))).run = _
    rw [stepComment_inside _ hdata.1]
    show ({ l with comment := before.push c }.goto .comment (data ++ ("-->".toList ++ cs))).run = _
    rw [ih hdata.2, push_append]

theorem run_comment {data : String} (hdata : ¬"-->".toList <:+: data.toList) (cs : List Char) :
    (l.goto .data ((Token.comment data).spell ++ cs)).run =
      ({ l with tokens := l.known.push (.comment data), text := "", comment := "" }.goto
        .data cs).run := by
  rw [Token.spell_comment, run_goto hl]
  show (l.goto .tagOpen ("!--".toList ++ (data.toList ++ ("-->".toList ++ cs)))).run = _
  rw [run_goto hl]
  show ({ l with comment := "" }.goto .comment (data.toList ++ ("-->".toList ++ cs))).run = _
  rw [run_insideComment hl hdata, String.empty_append, String.ofList_toList]

omit hl in
theorem splitWords_cons {c : Char} {word : List Char} (h : ∀ d ∈ c :: word, isBlank d = false) :
    splitWords (c :: word) = [c :: word] := by
  induction word generalizing c with
  | nil => rw [splitWords, h c (.head _), if_neg Bool.false_ne_true]
  | cons d word ih =>
    rw [List.forall_mem_cons] at h
    rw [splitWords, h.1, h.2 d (.head _), if_neg Bool.false_ne_true, if_neg Bool.false_ne_true,
      ih h.2]

omit hl in
/-- A word without blanks is one word, also behind a blank. -/
theorem splitWords_plain {word : List Char} (h : ∀ c ∈ word, isBlank c = false) :
    (splitWords (' ' :: word)).headD [] = word := by
  cases word with
  | nil => rfl
  | cons c word =>
    show (splitWords (c :: word)).headD [] = _
    rw [splitWords_cons h]
    rfl

theorem run_doctype {name : String}
    (hname : ∀ c ∈ name.toList, (!isBlank c && c != '>' && !c.isUpper) = true) (cs : List Char) :
    (l.goto .data ((Token.doctype name).spell ++ cs)).run =
      ({ l with tokens := l.known.push (.doctype name), text := "" }.goto .data cs).run := by
  have hchar : ∀ c ∈ name.toList, (isBlank c = false ∧ c ≠ '>') ∧ c.isUpper = false := by
    simpa using hname
  have hinside : ∀ c ∈ ' ' :: name.toList, (c != '>') = true := by
    rw [List.forall_mem_cons]
    exact ⟨by decide, fun c hc => by simpa using (hchar c hc).1.2⟩
  have hword : (' ' :: (name.toList ++ '>' :: cs)).takeWhile (· != '>') = ' ' :: name.toList := by
    rw [← List.cons_append, List.takeWhile_append_of_pos hinside,
      List.takeWhile_cons_of_neg (by decide), List.append_nil]
  have hrest : (' ' :: (name.toList ++ '>' :: cs)).dropWhile (· != '>') = '>' :: cs := by
    rw [← List.cons_append, List.dropWhile_append_of_pos hinside,
      List.dropWhile_cons_of_neg (by decide)]
  have hlower : name.toList.map Char.toLower = name.toList :=
    calc name.toList.map Char.toLower
      _ = name.toList.map id :=
        List.map_congr_left fun c hc =>
          Char.toLower_eq_of_not_isUpper (by simpa using (hchar c hc).2)
      _ = name.toList := List.map_id _
  have hdrop : dropLetters? "doctype".toList ("DOCTYPE ".toList ++ (name.toList ++ '>' :: cs)) =
      some (' ' :: (name.toList ++ '>' :: cs)) := rfl
  rw [Token.spell_doctype, run_goto hl]
  show (l.goto .tagOpen ("!DOCTYPE ".toList ++ (name.toList ++ '>' :: cs))).run = _
  rw [run_goto hl]
  show (Lexer.declaration _ ("DOCTYPE ".toList ++ (name.toList ++ '>' :: cs))).run = _
  rw [declaration, hdrop]
  · dsimp only
    rw [hword, hrest, splitWords_plain fun c hc => (hchar c hc).1.1, hlower, String.ofList_toList,
      emit_eq]
    rfl
  · intro rest hrest
    cases hrest

end run

/-! ## 6. Tokens -/

section run

variable {l : Lexer} (hl : l.finished = false) {name : String}
include hl

theorem run_name (hname : TagName name) (tag : OpenTag) (htag : tag.name = "") (cs : List Char) :
    ((l.within tag).goto .tagName (name.toList ++ cs)).run =
      ((l.within { tag with name }).goto .tagName cs).run := by
  rw [run_tagName hname cs hl, htag, String.empty_append, String.ofList_toList]

theorem run_endTag (hname : SpelledTagName name) (cs : List Char) :
    (l.goto .data ((Token.endTag name).spell ++ cs)).run =
      ({ l with tokens := l.known.push (.endTag name), text := "", tag := {} }.goto
        .data cs).run := by
  obtain ⟨c, rest, hlist, hc⟩ := hname.exists_cons
  have hopen := run_openEndTag hl hc (rest ++ '>' :: cs)
  rw [← List.cons_append, ← hlist, run_name hl hname.2 _ rfl,
    run_closeTag hl rfl (.inl rfl)] at hopen
  rw [Token.spell_endTag, hopen]
  rfl

theorem run_startTag (hname : SpelledTagName name) (selfClosing : Bool) {as : List Attribute}
    (has : ∀ a ∈ as, SpelledAttributeName a.name) (hnames : (as.map Attribute.name).Nodup)
    (cs : List Char) :
    (l.goto .data ((Token.startTag name selfClosing as).spell ++ cs)).run =
      ({ l with tokens := l.known.push (.startTag name selfClosing as), text := "", tag := {} }.goto
        (OpenTag.nextState { name, selfClosing }) cs).run := by
  obtain ⟨c, rest, hlist, hc⟩ := hname.exists_cons
  let close : List Char := if selfClosing then ['/', '>'] else ['>']
  have hopen := run_openTag hl hc (rest ++ (as.flatMap spellAttribute ++ (close ++ cs)))
  obtain ⟨state, hstate, hattributes⟩ :=
    @run_attributes l hl { name } _ as has hnames rfl (.inl rfl) (close ++ cs)
  rw [← List.cons_append, ← hlist, run_name hl hname.2 _ rfl, hattributes] at hopen
  have hspell : (Token.startTag name selfClosing as).spell ++ cs =
      '<' :: (name.toList ++ (as.flatMap spellAttribute ++ (close ++ cs))) := by
    show '<' :: (name.toList ++ (as.flatMap spellAttribute ++ close) ++ cs) = _
    rw [List.append_assoc, List.append_assoc]
  rw [hspell, hopen]
  cases selfClosing with
  | true => exact run_closeSelfClosingTag hl rfl hstate cs
  | false => exact run_closeTag hl rfl hstate cs

theorem run_end : (l.goto .data []).run.tokens = l.known.push .endOfFile := by
  rw [run_goto hl]
  show (Lexer.finish _).run.tokens = _
  rw [run, if_pos (finish_finished _), finish, emit_eq]
  rfl

end run

end Lexer

/-! ## 7. Rows of tokens -/

namespace Context

/-- The element that holds nothing but text, if the row stands inside of one. -/
def raw? : Context → Option String
  | free | afterText => none
  | raw name | afterRaw name => some name

def state (k : Context) : LexState :=
  match k.raw? with
  | none => .data
  | some name => .rawText name

/-- Whether no text stands directly in front. -/
def Fresh : Context → Prop
  | free | raw _ => True
  | afterText | afterRaw _ => False

theorem state_next_startTag (k : Context) (name : String) (selfClosing : Bool)
    (as : List Attribute) :
    (k.next (.startTag name selfClosing as)).state = OpenTag.nextState { name, selfClosing } := by
  show (if !selfClosing && rawTextElements.contains name then raw name else free).state =
    if !selfClosing && rawTextElements.contains name then .rawText name else .data
  split <;> rfl

theorem raw_free : ∀ name ∈ free.raw?, name ∈ rawTextElements := fun _ hname => by cases hname

theorem raw_next_startTag (k : Context) {name : String} {selfClosing : Bool} {as : List Attribute} :
    ∀ other ∈ (k.next (.startTag name selfClosing as)).raw?, other ∈ rawTextElements := by
  show ∀ other ∈ (if !selfClosing && rawTextElements.contains name then raw name else free).raw?, _
  split
  · next hraw =>
    intro other hother
    cases hother
    rw [Bool.and_eq_true] at hraw
    exact List.contains_iff_mem.1 hraw.2
  · intro other hother
    cases hother

/-- Only inside of a raw text element a text is written as it is. -/
theorem spell_of_raw? {k : Context} (hk : k.raw? = none) (t : Token) : k.spell t = t.spell := by
  cases k with
  | free | afterText => rfl
  | raw name | afterRaw name => cases hk

/-- Behind a raw text comes an end tag. -/
theorem spellAll_afterRaw {name : String} {ts : List Token} (hts : (afterRaw name).AllowsAll ts) :
    ∃ rest, (afterRaw name).spellAll ts = '<' :: rest := by
  cases ts with
  | nil => exact hts.elim
  | cons t ts =>
    obtain ⟨rfl, -⟩ : t = .endTag name ∧ _ := hts
    exact ⟨_, rfl⟩

end Context

namespace Lexer

/-- The lexer stands behind the tokens `done` in the context `k`; a text in front is the only thing
left over. -/
structure Ready (l : Lexer) (k : Context) (done : List Token) : Prop where
  unfinished : l.finished = false
  known : l.known.toList = done
  fresh : k.Fresh → l.text = ""
  raw : ∀ name ∈ k.raw?, name ∈ rawTextElements

namespace Ready

variable {l : Lexer} {k : Context} {done : List Token} (h : l.Ready k done)
include h

/-- A token was taken, and no text is left over. -/
theorem taken {l' : Lexer} {k' : Context} (t : Token) (hfinished : l'.finished = l.finished)
    (htokens : l'.tokens = l.known.push t) (htext : l'.text = "")
    (hraw : ∀ name ∈ k'.raw?, name ∈ rawTextElements) :
    l'.Ready k' (done ++ [t]) where
  unfinished := hfinished.trans h.unfinished
  known := by
    rw [known_of_text htext, htokens, Array.toList_push, h.known]
  fresh _ := htext
  raw := hraw

/-- A text was read, and nothing was left over in front of it. -/
theorem gathered {k' : Context} (hfresh : k.Fresh) {data : String} (hdata : data ≠ "")
    (hk' : k'.raw? = k.raw?) (hfresh' : ¬k'.Fresh) :
    (l.addText data.toList).Ready k' (done ++ [.text data]) where
  unfinished := h.unfinished
  known := by
    have htext : (l.addText data.toList).text = data := by
      rw [addText, h.fresh hfresh, String.empty_append, String.ofList_toList]
    have hknown : l.tokens.toList = done := by
      rw [← h.known, known_of_text (h.fresh hfresh)]
    rw [Lexer.known, htext, if_neg (fun hempty => hdata (String.isEmpty_iff.1 hempty)),
      Array.toList_push]
    exact congrArg (· ++ [Token.text data]) hknown
  fresh hk := absurd hk hfresh'
  raw := hk' ▸ h.raw

/-- What is written on its own is read where no raw text stands. -/
theorem read_spellable (hk : k.raw? = none) {t : Token} (ht : t.Spellable)
    (hfresh : ∀ data, t = .text data → k.Fresh) (cs : List Char) :
    ∃ l' : Lexer, l'.Ready (k.next t) (done ++ [t]) ∧
      (l.goto .data (t.spell ++ cs)).run = (l'.goto (k.next t).state cs).run := by
  cases t with
  | endOfFile => exact ht.elim
  | doctype name =>
    refine ⟨_, ?_, run_doctype h.unfinished ht cs⟩
    exact h.taken (.doctype name) rfl rfl rfl Context.raw_free
  | comment data =>
    refine ⟨_, ?_, run_comment h.unfinished ht cs⟩
    exact h.taken (.comment data) rfl rfl rfl Context.raw_free
  | endTag name =>
    refine ⟨_, ?_, run_endTag h.unfinished ht cs⟩
    exact h.taken (.endTag name) rfl rfl rfl Context.raw_free
  | startTag name selfClosing attributes =>
    rw [Context.state_next_startTag]
    refine ⟨_, ?_, run_startTag h.unfinished ht.1 selfClosing ht.2.1 ht.2.2 cs⟩
    exact h.taken (.startTag name selfClosing attributes) rfl rfl rfl (Context.raw_next_startTag k)
  | text data =>
    have hnext : k.next (.text data) = .afterText := by
      cases k with
      | free | afterText => rfl
      | raw name | afterRaw name => cases hk
    rw [hnext]
    refine ⟨_, ?_, run_text data.toList cs h.unfinished⟩
    exact h.gathered (hfresh data rfl) ht hk.symm id

/-- Inside of a raw text element its end tag is read. -/
theorem read_rawEndTag (name : String) (cs : List Char) :
    ∃ l' : Lexer, l'.Ready .free (done ++ [.endTag name]) ∧
      (l.goto (.rawText name) ((Token.endTag name).spell ++ cs)).run = (l'.goto .data cs).run := by
  rw [Token.spell_endTag, run_rawEndTag h.unfinished, run_closeTag h.unfinished rfl (.inl rfl)]
  refine ⟨_, ?_, rfl⟩
  exact h.taken (.endTag name) rfl rfl rfl Context.raw_free

/-- **Each token is read as it was written**, and the lexer is ready for what comes next. -/
theorem read {t : Token} {ts : List Token} (hts : k.AllowsAll (t :: ts)) :
    ∃ l' : Lexer, l'.Ready (k.next t) (done ++ [t]) ∧
      (l.goto k.state (k.spellAll (t :: ts))).run =
        (l'.goto (k.next t).state ((k.next t).spellAll ts)).run := by
  obtain ⟨ht, hts⟩ := hts
  rw [Context.spellAll]
  cases k with
  | free =>
    rw [Context.spell_of_raw? rfl]
    exact h.read_spellable rfl ht (fun _ _ => trivial) _
  | afterText =>
    have hplain : ∀ data, t ≠ .text data := by
      rintro data rfl
      have hfalse : true = false := ht.2
      cases hfalse
    rw [Context.spell_of_raw? rfl]
    exact h.read_spellable rfl ht.1 (fun data heq => absurd heq (hplain data)) _
  | raw name =>
    cases t with
    | text data =>
      obtain ⟨rest, hrest⟩ := Context.spellAll_afterRaw hts
      have hname := h.raw name rfl
      show ∃ l' : Lexer, l'.Ready (.afterRaw name) _ ∧ (l.goto (.rawText name) (data.toList ++
        (Context.afterRaw name).spellAll ts)).run =
        (l'.goto (.rawText name) ((Context.afterRaw name).spellAll ts)).run
      rw [hrest]
      refine ⟨_, ?_, run_rawText h.unfinished hname ht.2 rest⟩
      exact h.gathered trivial ht.1 rfl id
    | endTag other =>
      cases ht
      exact h.read_rawEndTag name _
    | _ => exact ht.elim
  | afterRaw name =>
    obtain rfl : t = .endTag name := ht
    exact h.read_rawEndTag name _

end Ready

theorem run_spellAll {k : Context} {l : Lexer} {done ts : List Token} (h : l.Ready k done)
    (hts : k.AllowsAll ts) :
    (l.goto k.state (k.spellAll ts)).run.tokens.toList = done ++ ts ++ [.endOfFile] := by
  induction ts generalizing k l done with
  | nil =>
    have hstate : k.state = .data := by
      cases k with
      | free | afterText => rfl
      | raw name | afterRaw name => exact hts.elim
    rw [hstate, Context.spellAll, run_end h.unfinished, Array.toList_push, h.known, List.append_nil]
  | cons t ts ih =>
    obtain ⟨l', hl', hrun⟩ := h.read hts
    rw [hrun, ih hl' hts.2, List.append_assoc done [t]]
    rfl

end Lexer

/-- **A row of tokens that is written down is read back.** -/
theorem lex_spell {ts : List Token} (h : Canonical ts) :
    (lex (spell ts)).tokens.toList = ts ++ [.endOfFile] := by
  have hready : ({ rest := [] } : Lexer).Ready .free [] :=
    ⟨rfl, rfl, fun _ => rfl, Context.raw_free⟩
  have hstart : lex (spell ts) =
      (({ rest := [] } : Lexer).goto .data (Context.free.spellAll ts)).run := by
    rw [lex, Lexer.ofString, spell, String.toList_ofList]
    rfl
  rw [hstart]
  exact Lexer.run_spellAll hready h

/-- Quotes in a value, brackets in a text, hyphens in a comment, and a raw text with other end tags
in it. -/
theorem lex_spell_page :
    let ts : List Token :=
      [.doctype "html", .startTag "p" false [⟨"title", "\"a\" & <b>"⟩, ⟨"data-x", ""⟩],
      .text "1 < 2 &amp; 2 > 1", .comment "-<p>--", .startTag "br" true [],
      .startTag "script" false [], .text "if (a<b && c) '</p></scripts>' <!--", .endTag "script",
      .startTag "title" true [], .text " ", .endTag "p"]
    Canonical ts ∧ (lex (spell ts)).tokens.toList = ts ++ [.endOfFile] := by
  intro ts
  have hts : Canonical ts := by decide +kernel
  exact ⟨hts, lex_spell hts⟩

end UniqueSelector.Markup
