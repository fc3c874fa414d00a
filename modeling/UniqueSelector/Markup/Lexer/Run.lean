import UniqueSelector.Markup.Lexer.Basic

/-!
# Run — the lexer comes to the end of its input

A state that hands a character on hands it to a state that is nearer to taking it, and every other
step takes a character or finishes. So each step leaves fewer steps to come
(`Lexer.step_pending_lt`), and a run ends.
-/

namespace UniqueSelector.Markup

namespace Lexer

/-! ## 1. Every step comes nearer to the end -/

/-- How many more states may look at the first character before one of them takes it. -/
def patience : LexState → List Char → Nat
  | .tagOpen, _ | .endTagOpen, _ => 1
  -- From here to the next name, from there behind it, and there a character is taken.
  | .selfClosingStartTag, _ | .afterAttributeValueQuoted, _ => 3
  | .beforeAttributeName, _ => 2
  | .afterAttributeName, _ | .beforeAttributeValue, _ => 1
  | .attributeName, [] => 2
  | .attributeName, c :: _ => if endsAttributeName c then 2 else 0
  | _, _ => 0

theorem patience_le (s : LexState) (cs : List Char) : patience s cs ≤ 3 := by
  unfold patience
  split <;> (try split) <;> omega

/-- A bound on the steps that are left. -/
def pending (l : Lexer) : Nat :=
  if l.finished then 0 else 4 * l.rest.length + patience l.state l.rest + 1

theorem finish_finished (l : Lexer) : l.finish.finished = true := rfl

theorem pending_finish (l : Lexer) : l.finish.pending = 0 := by simp [pending, finish_finished]

theorem pending_abandonTag (l : Lexer) : l.abandonTag.pending = 0 := pending_finish _

@[simp] theorem flushText_rest (l : Lexer) : l.flushText.rest = l.rest := by
  unfold flushText; split <;> rfl

@[simp] theorem flushText_state (l : Lexer) : l.flushText.state = l.state := by
  unfold flushText; split <;> rfl

@[simp] theorem flushText_finished (l : Lexer) : l.flushText.finished = l.finished := by
  unfold flushText; split <;> rfl

@[simp] theorem emit_rest (l : Lexer) (t : Token) : (l.emit t).rest = l.rest := by simp [emit]

@[simp] theorem emit_state (l : Lexer) (t : Token) : (l.emit t).state = l.state := by simp [emit]

@[simp] theorem emit_finished (l : Lexer) (t : Token) : (l.emit t).finished = l.finished := by
  simp [emit]

/-- Taking characters is progress, whatever state comes next. -/
theorem pending_le (l : Lexer) {n : Nat} (h : l.rest.length ≤ n) : l.pending ≤ 4 * n + 4 := by
  unfold pending
  have := patience_le l.state l.rest
  split <;> omega

theorem textReference_rest (l : Lexer) (cs : List Char) :
    (l.textReference cs).rest = (resolve false cs).rest := by
  unfold textReference
  simp only
  split <;> rfl

theorem valueReference_rest (l : Lexer) (cs : List Char) :
    (l.valueReference cs).rest = (resolve true cs).rest := by
  unfold valueReference
  simp only
  split <;> rfl

theorem dropEndTag?_length_le {name : String} {cs after : List Char}
    (h : dropEndTag? name cs = some after) :
    after.length ≤ cs.length := by
  unfold dropEndTag? at h
  split at h
  · have := dropLetters?_length (Option.filter_eq_some_iff.1 h).1
    simp only [List.length_cons]; omega
  · simp at h

theorem declaration_length_le (l : Lexer) (cs : List Char) :
    (l.declaration cs).rest.length ≤ cs.length := by
  unfold declaration
  split
  · simp only [startComment, List.length_cons]; omega
  · split
    · simp [startComment]
    · next after h =>
      have := dropLetters?_length h
      have := (List.dropWhile_suffix (fun c => c != '>') (l := after)).length_le
      simp only [goto, List.length_tail]; omega

/-- A lexer that has taken a character is nearer to the end, whatever state comes next. -/
theorem pending_lt_of_taken {l : Lexer} {c : Char} {cs : List Char} {p : Nat}
    (h : l.rest.length ≤ cs.length) : l.pending < 4 * (c :: cs).length + p + 1 := by
  have := l.pending_le h
  simp only [List.length_cons]
  omega

/-- A lexer that hands the same characters to a more eager state is nearer to the end. -/
theorem pending_lt_of_handed {l : Lexer} {cs : List Char} {s : LexState} {p : Nat}
    (hr : l.rest = cs) (hs : l.state = s) (h : patience s cs < p) :
    l.pending < 4 * cs.length + p + 1 := by
  unfold pending
  rw [hr, hs]
  split <;> omega

theorem stepData_pending_lt (l : Lexer) (cs : List Char) :
    (l.stepData cs).pending < 4 * cs.length + patience .data cs + 1 := by
  cases cs with
  | nil => simp [stepData, pending_finish]
  | cons c cs =>
    have := resolve_length_le false cs
    simp only [stepData]
    repeat' split
    all_goals exact pending_lt_of_taken (by simp_all [goto, textReference_rest])

theorem stepRawText_pending_lt (l : Lexer) (name : String) (cs : List Char) :
    (l.stepRawText name cs).pending < 4 * cs.length + patience (.rawText name) cs + 1 := by
  cases cs with
  | nil => simp [stepRawText, pending_finish]
  | cons c cs =>
    simp only [stepRawText]
    split
    · next after h =>
      refine pending_lt_of_taken ?_
      split at h
      · exact dropEndTag?_length_le h
      · simp at h
    · exact pending_lt_of_taken (Nat.le_refl _)

theorem stepTagOpen_pending_lt (l : Lexer) (cs : List Char) (hr : l.rest = cs) :
    (l.stepTagOpen cs).pending < 4 * cs.length + patience .tagOpen cs + 1 := by
  cases cs with
  | nil => exact pending_lt_of_handed (s := .data) rfl rfl (by simp [patience])
  | cons c cs =>
    simp only [stepTagOpen]
    repeat' split
    · exact pending_lt_of_taken (l.declaration_length_le cs)
    · exact pending_lt_of_taken (Nat.le_refl _)
    · exact pending_lt_of_handed (s := .tagName) hr rfl (by simp [patience])
    · exact pending_lt_of_handed (s := .bogusComment) rfl rfl (by simp [patience])
    · exact pending_lt_of_handed (s := .data) rfl rfl (by simp [patience])

theorem stepEndTagOpen_pending_lt (l : Lexer) (cs : List Char) (hr : l.rest = cs) :
    (l.stepEndTagOpen cs).pending < 4 * cs.length + patience .endTagOpen cs + 1 := by
  cases cs with
  | nil => exact pending_lt_of_handed (s := .data) rfl rfl (by simp [patience])
  | cons c cs =>
    simp only [stepEndTagOpen]
    repeat' split
    · exact pending_lt_of_handed (s := .tagName) hr rfl (by simp [patience])
    · exact pending_lt_of_taken (Nat.le_refl _)
    · exact pending_lt_of_handed (s := .bogusComment) rfl rfl (by simp [patience])

theorem stepTagName_pending_lt (l : Lexer) (cs : List Char) :
    (l.stepTagName cs).pending < 4 * cs.length + patience .tagName cs + 1 := by
  cases cs with
  | nil => simp [stepTagName, pending_abandonTag]
  | cons c cs =>
    simp only [stepTagName]
    repeat' split
    all_goals exact pending_lt_of_taken (Nat.le_refl _)

theorem stepBeforeAttributeName_pending_lt (l : Lexer) (cs : List Char) (hr : l.rest = cs) :
    (l.stepBeforeAttributeName cs).pending < 4 * cs.length +
      patience .beforeAttributeName cs + 1 := by
  cases cs with
  | nil => exact pending_lt_of_handed (s := .afterAttributeName) rfl rfl (by simp [patience])
  | cons c cs =>
    simp only [stepBeforeAttributeName]
    split
    · exact pending_lt_of_taken (Nat.le_refl _)
    · next hblank =>
      split
      · exact pending_lt_of_handed (s := .afterAttributeName) rfl rfl (by simp [patience])
      · next hend =>
        refine pending_lt_of_handed (s := .attributeName) hr rfl ?_
        have : endsAttributeName c = false := by simp_all [endsAttributeName]
        simp [patience, this]

theorem stepAttributeName_pending_lt (l : Lexer) (cs : List Char) :
    (l.stepAttributeName cs).pending < 4 * cs.length + patience .attributeName cs + 1 := by
  cases cs with
  | nil => exact pending_lt_of_handed (s := .afterAttributeName) rfl rfl (by simp [patience])
  | cons c cs =>
    simp only [stepAttributeName]
    split
    · next hend =>
        exact pending_lt_of_handed (s := .afterAttributeName) rfl rfl (by simp [patience, hend])
    · split <;> exact pending_lt_of_taken (Nat.le_refl _)

theorem stepAfterAttributeName_pending_lt (l : Lexer) (cs : List Char) (hr : l.rest = cs) :
    (l.stepAfterAttributeName cs).pending < 4 * cs.length +
      patience .afterAttributeName cs + 1 := by
  cases cs with
  | nil => simp [stepAfterAttributeName, pending_abandonTag]
  | cons c cs =>
    simp only [stepAfterAttributeName]
    repeat' split
    · exact pending_lt_of_taken (Nat.le_refl _)
    · exact pending_lt_of_taken (Nat.le_refl _)
    · exact pending_lt_of_taken (Nat.le_refl _)
    · exact pending_lt_of_taken (Nat.le_refl _)
    · refine pending_lt_of_handed (s := .attributeName) hr rfl ?_
      have : endsAttributeName c = false := by simp_all [endsAttributeName]
      simp [patience, this]

theorem stepBeforeAttributeValue_pending_lt (l : Lexer) (cs : List Char) :
    (l.stepBeforeAttributeValue cs).pending < 4 * cs.length +
      patience .beforeAttributeValue cs + 1 := by
  cases cs with
  | nil => exact pending_lt_of_handed (s := .attributeValueUnquoted) rfl rfl (by simp [patience])
  | cons c cs =>
    simp only [stepBeforeAttributeValue]
    repeat' split
    · exact pending_lt_of_taken (Nat.le_refl _)
    · exact pending_lt_of_taken (Nat.le_refl _)
    · exact pending_lt_of_taken (Nat.le_refl _)
    · exact pending_lt_of_taken (Nat.le_refl _)
    · exact pending_lt_of_handed (s := .attributeValueUnquoted) rfl rfl (by simp [patience])

theorem stepAttributeValueQuoted_pending_lt (l : Lexer) (quote : Quote) (cs : List Char) :
    (l.stepAttributeValueQuoted quote cs).pending <
      4 * cs.length + patience (.attributeValueQuoted quote) cs + 1 := by
  cases cs with
  | nil => simp [stepAttributeValueQuoted, pending_abandonTag]
  | cons c cs =>
    have := resolve_length_le true cs
    simp only [stepAttributeValueQuoted]
    repeat' split
    all_goals exact pending_lt_of_taken (by simp_all [valueReference_rest])

theorem stepAttributeValueUnquoted_pending_lt (l : Lexer) (cs : List Char) :
    (l.stepAttributeValueUnquoted cs).pending < 4 * cs.length +
      patience .attributeValueUnquoted cs + 1 := by
  cases cs with
  | nil => simp [stepAttributeValueUnquoted, pending_abandonTag]
  | cons c cs =>
    have := resolve_length_le true cs
    simp only [stepAttributeValueUnquoted]
    repeat' split
    all_goals exact pending_lt_of_taken (by simp_all [valueReference_rest, emitTag])

theorem stepAfterAttributeValueQuoted_pending_lt (l : Lexer) (cs : List Char) :
    (l.stepAfterAttributeValueQuoted cs).pending <
      4 * cs.length + patience .afterAttributeValueQuoted cs + 1 := by
  cases cs with
  | nil => simp [stepAfterAttributeValueQuoted, pending_abandonTag]
  | cons c cs =>
    simp only [stepAfterAttributeValueQuoted]
    repeat' split
    · exact pending_lt_of_taken (Nat.le_refl _)
    · exact pending_lt_of_taken (Nat.le_refl _)
    · exact pending_lt_of_taken (Nat.le_refl _)
    · exact pending_lt_of_handed (s := .beforeAttributeName) rfl rfl (by simp [patience])

theorem stepSelfClosingStartTag_pending_lt (l : Lexer) (cs : List Char) :
    (l.stepSelfClosingStartTag cs).pending < 4 * cs.length +
      patience .selfClosingStartTag cs + 1 := by
  cases cs with
  | nil => simp [stepSelfClosingStartTag, pending_abandonTag]
  | cons c cs =>
    simp only [stepSelfClosingStartTag]
    split
    · exact pending_lt_of_taken (Nat.le_refl _)
    · exact pending_lt_of_handed (s := .beforeAttributeName) rfl rfl (by simp [patience])

theorem stepComment_pending_lt (l : Lexer) (cs : List Char) :
    (l.stepComment cs).pending < 4 * cs.length + patience .comment cs + 1 := by
  unfold stepComment
  split
  · simp [pending_finish]
  · exact pending_lt_of_taken (by simp [emitComment]; omega)
  · exact pending_lt_of_taken (Nat.le_refl _)

theorem stepBogusComment_pending_lt (l : Lexer) (cs : List Char) :
    (l.stepBogusComment cs).pending < 4 * cs.length + patience .bogusComment cs + 1 := by
  cases cs with
  | nil => simp [stepBogusComment, pending_finish]
  | cons c cs =>
    simp only [stepBogusComment]
    split <;> exact pending_lt_of_taken (Nat.le_refl _)

/-- **Progress.** A step of a lexer that is not finished leaves fewer steps to come. -/
theorem step_pending_lt (l : Lexer) (h : l.finished = false) : l.step.pending < l.pending := by
  have hp : l.pending = 4 * l.rest.length + patience l.state l.rest + 1 := by simp [pending, h]
  rw [hp]
  unfold step
  split
  next hs => rw [hs]; exact l.stepData_pending_lt _
  next name hs => rw [hs]; exact l.stepRawText_pending_lt name _
  next hs => rw [hs]; exact l.stepTagOpen_pending_lt _ rfl
  next hs => rw [hs]; exact l.stepEndTagOpen_pending_lt _ rfl
  next hs => rw [hs]; exact l.stepTagName_pending_lt _
  next hs => rw [hs]; exact l.stepBeforeAttributeName_pending_lt _ rfl
  next hs => rw [hs]; exact l.stepAttributeName_pending_lt _
  next hs => rw [hs]; exact l.stepAfterAttributeName_pending_lt _ rfl
  next hs => rw [hs]; exact l.stepBeforeAttributeValue_pending_lt _
  next quote hs => rw [hs]; exact l.stepAttributeValueQuoted_pending_lt quote _
  next hs => rw [hs]; exact l.stepAttributeValueUnquoted_pending_lt _
  next hs => rw [hs]; exact l.stepAfterAttributeValueQuoted_pending_lt _
  next hs => rw [hs]; exact l.stepSelfClosingStartTag_pending_lt _
  next hs => rw [hs]; exact l.stepComment_pending_lt _
  next hs => rw [hs]; exact l.stepBogusComment_pending_lt _

/-! ## 2. Runs -/

def run (l : Lexer) : Lexer :=
  if l.finished then l else run l.step
termination_by l.pending
decreasing_by exact l.step_pending_lt (by simp_all)

def ofString (html : String) : Lexer := { rest := html.toList }

end Lexer

/-- The lexer at the end of the text `html`. -/
def lex (html : String) : Lexer := (Lexer.ofString html).run

end UniqueSelector.Markup
