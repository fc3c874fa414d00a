import UniqueSelector.Proofs.Lookups
import UniqueSelector.Proofs.TagNames

/-!
# Scanner steps — the scanner does what the lexer does

Between two steps the scanner has a lexer in front of it: the one that has the same characters left
to read. A step of the scanner leads to the step of that lexer. It never goes back in the text, it
never looks behind its end, and a character that it does not take is handed to a state that is
nearer to taking it.
-/

namespace UniqueSelector.Markup

namespace Lexer

/-! ## 1. What is left is read by no one but the step -/

/-- The lexer with other characters before it. -/
def facing (l : Lexer) (rest : List Char) : Lexer := { l with rest }

variable (l : Lexer) (rest cs : List Char)

theorem flushText_facing : (l.facing rest).flushText = l.flushText.facing rest := by
  unfold flushText
  show (if l.text.isEmpty then _ else _) = _
  split <;> rfl

theorem emit_facing (t : Token) : (l.facing rest).emit t = (l.emit t).facing rest := by
  unfold emit
  rw [flushText_facing]
  rfl

theorem finish_facing : (l.facing rest).finish = l.finish.facing rest := by
  unfold finish
  rw [emit_facing]
  rfl

theorem abandonTag_facing : (l.facing rest).abandonTag = l.abandonTag.facing rest :=
  finish_facing (l.remark (.unfinishedTag l.state.name)) rest

theorem emitTag_facing : (l.facing rest).emitTag cs = (l.emitTag []).facing cs := by
  unfold emitTag
  dsimp only
  rw [emit_facing]
  rfl

theorem emitComment_facing : (l.facing rest).emitComment cs = (l.emitComment []).facing cs := by
  unfold emitComment
  rw [emit_facing]
  rfl

section declarations

variable {cs} (hdash : ∀ after, cs ≠ '-' :: '-' :: after)
include hdash

theorem declaration_of_other (h : dropLetters? "doctype".toList cs = none) :
    l.declaration cs = l.startComment .bogusComment cs := by
  unfold declaration
  split
  · next after => exact absurd rfl (hdash after)
  · rw [h]

theorem declaration_of_doctype {after : List Char}
    (h : dropLetters? "doctype".toList cs = some after) :
    l.declaration cs =
      (l.emit (.doctype (String.ofList
        (((splitWords (after.takeWhile (· != '>'))).headD []).map Char.toLower)))).goto .data
        (after.dropWhile (· != '>')).tail := by
  unfold declaration
  split
  · next after => exact absurd rfl (hdash after)
  · rw [h]

end declarations

end Lexer

namespace Scanner

/-! ## 2. How long a character is handed on -/

/-- How many more states may look at the current character before one of them is done with it. -/
def hops : LexState → Option Char → Nat
  | .selfClosingStartTag, some _ | .afterAttributeValueQuoted, some _ => 2
  | .tagOpen, _ | .endTagOpen, _ | .beforeAttributeName, _ | .beforeAttributeValue, _ => 1
  | .attributeName, none => 1
  | .attributeName, some c => if Lexer.endsAttributeName c then 1 else 0
  | .afterAttributeName, some c =>
    if Lexer.endsAttributeName c then 0 else if c == '=' then 0 else 1
  | _, _ => 0

theorem hops_none_le (state : LexState) : hops state none ≤ 1 := by
  cases state <;> first | exact Nat.zero_le 1 | exact Nat.le_refl 1

theorem hops_le (state : LexState) (c : Option Char) : hops state c ≤ 2 := by
  cases c with
  | none => exact Nat.le_succ_of_le (hops_none_le state)
  | some c =>
    cases state with
    | attributeName =>
      show (if Lexer.endsAttributeName c then 1 else 0) ≤ 2
      split <;> omega
    | afterAttributeName =>
      show (if Lexer.endsAttributeName c then 0 else if c == '=' then 0 else 1) ≤ 2
      repeat' split
      all_goals omega
    | selfClosingStartTag | afterAttributeValueQuoted => exact Nat.le_refl 2
    | tagOpen | endTagOpen | beforeAttributeName | beforeAttributeValue => exact Nat.le_succ 1
    | _ => exact Nat.zero_le 2

section attributeNames

variable {c : Char}

theorem hops_attributeName_of_ends (h : Lexer.endsAttributeName c = true) :
    hops .attributeName (some c) = 1 := if_pos h

theorem hops_attributeName_of_not_ends (h : Lexer.endsAttributeName c = false) :
    hops .attributeName (some c) = 0 :=
  if_neg (by simp [h])

theorem hops_afterAttributeName_of_ends (h : Lexer.endsAttributeName c = true) :
    hops .afterAttributeName (some c) = 0 := if_pos h

theorem hops_afterAttributeName_of_not_ends (h : Lexer.endsAttributeName c = false)
    (hequals : ¬(c == '=') = true) :
    hops .afterAttributeName (some c) = 1 := (if_neg (by simp [h])).trans (if_neg hequals)

end attributeNames

/-! ## 3. The lexer in front of a scanner -/

/-- The characters from the position on. -/
def ahead (s : Scanner) : List Char := s.input.toList.drop s.position

theorem ahead_of_end {s : Scanner} (h : s.position = s.input.size) : s.ahead = [] := by
  unfold ahead
  rw [h, ← Array.length_toList, List.drop_length]

/-- The lexer that has the characters before it which the scanner has still to look at. -/
def view (s : Scanner) : Lexer :=
  s.lexer.facing ((if s.again then s.current.toList else []) ++ s.ahead)

/-- A character has been fetched, unless the text is at its end. -/
structure Fetched (s : Scanner) : Prop where
  once : s.again = false
  within : s.position ≤ s.input.size
  ended : s.current = none → s.position = s.input.size

/-- The lexer in front of the character that has been fetched. -/
def held (s : Scanner) : Lexer := s.lexer.facing (s.current.toList ++ s.ahead)

/-- What a step makes of a character: it leaves the scanner where the lexer `l` is, inside the text
and not further to the front; and a character that is handed on is handed to a state that is nearer
to taking it. -/
structure Lands (s s' : Scanner) (l : Lexer) : Prop where
  view_eq : s'.view = l
  input_eq : s'.input = s.input
  forward : s.position ≤ s'.position
  within : s'.position ≤ s'.input.size
  handed : s'.again = true → s'.current = s.current ∧ s'.position = s.position ∧
    hops s'.lexer.state s.current < hops s.lexer.state s.current
  ended : s.current = none → s'.again = true ∨ s'.lexer.finished = true

theorem Lands.ite {s a b : Scanner} {l l' : Lexer} {p : Prop} [Decidable p] (ha : p → Lands s a l)
    (hb : ¬p → Lands s b l') : Lands s (if p then a else b) (if p then l else l') := by
  split
  · next h => exact ha h
  · next h => exact hb h

/-! ## 4. Looking ahead -/

theorem startsWith_eq (s : Scanner) (word : String) :
    s.startsWith word = word.toList.isPrefixOf s.ahead :=
  standsAt_eq s.input s.position word.toList

theorem startsWith_of_ahead {s : Scanner} {word : String} {cs : List Char}
    (h : s.ahead = word.toList ++ cs) :
    s.startsWith word = true := by
  rw [startsWith_eq, h]
  simp

theorem atEndTag_iff (s : Scanner) (name : String) :
    s.atEndTag name = true ↔ s.input[s.position]? = some '/' ∧
      standsAt s.input (fun c w => c.toLower == w.toLower) (s.position + 1) name.toList = true ∧
      (match s.input[s.position + (1 + name.length)]? with
        | none => true
        | some c => c == '/' || c == '>' || isBlank c) = true := by
  have hlist : ("/" ++ name).toList = '/' :: name.toList := by simp
  have hlength : ("/" ++ name).length = 1 + name.length := String.length_append "/" name
  unfold atEndTag startsWithLetters
  rw [hlist, hlength, Bool.and_eq_true, standsAt]
  cases s.input[s.position]? with
  | none => simp
  | some c =>
    have hslash : (c.toLower == '/'.toLower) = true ↔ c = '/' := by
      rw [beq_iff_eq]
      exact ⟨fun hlower => by_contra fun hne => toLower_ne rfl hne hlower, fun hc => by rw [hc]⟩
    rw [Bool.and_eq_true, hslash, and_assoc]
    exact and_congr Option.some_inj.symm Iff.rfl

theorem dropEndTag?_ahead (s : Scanner) (name : String) :
    Lexer.dropEndTag? name s.ahead =
      if s.atEndTag name then some (s.input.toList.drop (s.position + (1 + name.length)))
        else none := by
  have hiff := s.atEndTag_iff name
  by_cases hslash : s.input[s.position]? = some '/'
  · rw [ahead, drop_of_some hslash]
    show (dropLetters? name.toList (s.input.toList.drop (s.position + 1))).filter _ = _
    rw [dropLetters?_drop, String.length_toList, Nat.add_assoc]
    by_cases hname : standsAt s.input (fun c w => c.toLower == w.toLower) (s.position + 1)
      name.toList = true
    · simp only [hslash, hname, true_and] at hiff
      rw [if_pos hname, Option.filter_some]
      cases hafter : s.input[s.position + (1 + name.length)]? with
      | none =>
        rw [hafter] at hiff
        rw [drop_of_none hafter, if_pos rfl, if_pos (hiff.2 rfl)]
      | some c =>
        rw [hafter] at hiff
        rw [drop_of_some hafter]
        exact if_congr hiff.symm rfl rfl
    · rw [if_neg hname, if_neg fun htag => hname (hiff.1 htag).2.1, Option.filter_none]
  · rw [if_neg fun htag => hslash (hiff.1 htag).1]
    unfold Lexer.dropEndTag?
    split
    · next cs hahead => exact absurd (by rw [getElem?_eq_head?, ← ahead, hahead]; rfl) hslash
    · rfl

theorem add_length_le_of_atEndTag {s : Scanner} {name : String} (h : s.atEndTag name = true) :
    s.position + (1 + name.length) ≤ s.input.size := by
  obtain ⟨hslash, hname, -⟩ := (s.atEndTag_iff name).1 h
  have hle := add_length_le_of_standsAt (lt_size_of_some hslash) hname
  rw [String.length_toList] at hle
  omega

/-! ## 5. Steps -/

theorem held_of_some {s : Scanner} {c : Char} (hc : s.current = some c) :
    s.held = s.lexer.facing (c :: s.ahead) := by
  unfold held
  rw [hc]
  rfl

namespace Fetched

variable {s : Scanner} (h : s.Fetched)
include h

theorem held_of_none (hc : s.current = none) : s.held = s.lexer.facing [] := by
  unfold held
  rw [hc, ahead_of_end (h.ended hc)]
  rfl

/-- The scanner is done with the character, and goes on at a position that is not further to
the front. -/
theorem moved (f : Lexer → Lexer) {position : Nat} (hforward : s.position ≤ position)
    (hwithin : position ≤ s.input.size) (hended : s.current = none → (f s.lexer).finished = true) :
    Lands s ({ s with position }.on f) ((f s.lexer).facing (s.input.toList.drop position)) where
  view_eq := by
    show Lexer.facing _ ((if s.again then _ else _) ++ _) = _
    rw [h.once]
    rfl
  input_eq := rfl
  forward := hforward
  within := hwithin
  handed hagain := absurd hagain (by show ¬s.again = true; rw [h.once]; simp)
  ended hc := .inr (hended hc)

theorem taken (f : Lexer → Lexer) {c : Char} (hc : s.current = some c) :
    Lands s (s.on f) ((f s.lexer).facing s.ahead) :=
  h.moved f (Nat.le_refl _) h.within fun hnone => by rw [hc] at hnone; cases hnone

/-- A blank is skipped in the same state. -/
theorem stayed {c : Char} (hc : s.current = some c) {state : LexState}
    (hs : s.lexer.state = state) :
    Lands s s ((s.lexer.facing (c :: s.ahead)).goto state s.ahead) := by
  rw [← hs]
  exact h.taken id hc

theorem finished (f : Lexer → Lexer) (hc : s.current = none) (hf : (f s.lexer).finished = true) :
    Lands s (s.on f) ((f s.lexer).facing []) :=
  ahead_of_end (h.ended hc) ▸ h.moved f (Nat.le_refl _) h.within fun _ => hf

/-- The character, or the end of the text, is handed to another state. -/
theorem handed (f : Lexer → Lexer) {state : LexState}
    (hhops : hops state s.current < hops s.lexer.state s.current) :
    Lands s ((s.on f).reconsumeIn state)
      ({ f s.lexer with state }.facing (s.current.toList ++ s.ahead)) where
  view_eq := rfl
  input_eq := rfl
  forward := Nat.le_refl _
  within := h.within
  handed _ := ⟨rfl, rfl, hhops⟩
  ended _ := .inl rfl

theorem atEnd (hc : s.current = none) : Lands s (s.on (·.finish)) (s.lexer.facing []).finish := by
  rw [Lexer.finish_facing]
  exact h.finished _ hc rfl

theorem abandoned (hc : s.current = none) :
    Lands s (s.on (·.abandonTag)) (s.lexer.facing []).abandonTag := by
  rw [Lexer.abandonTag_facing]
  exact h.finished _ hc rfl

theorem tagEmitted {c : Char} (hc : s.current = some c) (f : Lexer → Lexer) :
    Lands s (s.on fun l => (f l).emitTag [])
      (((f s.lexer).facing (c :: s.ahead)).emitTag s.ahead) := by
  rw [Lexer.emitTag_facing]
  exact h.taken _ hc

theorem commentEmitted {c : Char} (hc : s.current = some c) :
    Lands s (s.on (·.emitComment [])) ((s.lexer.facing (c :: s.ahead)).emitComment s.ahead) := by
  rw [Lexer.emitComment_facing]
  exact h.taken _ hc

theorem handedOn {c : Char} (hc : s.current = some c) {here state : LexState}
    (hs : s.lexer.state = here) (f : Lexer → Lexer)
    (hhops : hops state (some c) < hops here (some c)) :
    Lands s ((s.on f).reconsumeIn state) ({ f s.lexer with state }.facing (c :: s.ahead)) := by
  have hlands : Lands s ((s.on f).reconsumeIn state) _ := h.handed f (by rwa [hc, hs])
  rwa [hc] at hlands

theorem handedEnd (hc : s.current = none) {here state : LexState} (hs : s.lexer.state = here)
    (f : Lexer → Lexer) (hhops : hops state none < hops here none) :
    Lands s ((s.on f).reconsumeIn state) ({ f s.lexer with state }.facing []) := by
  have hlands : Lands s ((s.on f).reconsumeIn state) _ := h.handed f (by rwa [hc, hs])
  rwa [hc, ahead_of_end (h.ended hc)] at hlands

/-! ### Outside of tags -/

theorem referTo {c : Char} (hc : s.current = some c) (inAttribute : Bool)
    (push : Lexer → Char → Lexer) :
    ∃ s', s.referTo inAttribute push = some s' ∧ Lands s s'
      (let r := resolve inAttribute s.ahead
      let l := (push s.lexer r.character).facing r.rest
      match r.remark with
      | none => l
      | some remark => l.remark remark) := by
  obtain ⟨r, hr, hmeets⟩ := meets_resolve inAttribute h.within
  obtain ⟨hcharacter, hremark, hrest, hforward, hwithin⟩ := hmeets
  unfold Scanner.referTo ahead
  dsimp only
  rw [hr, Option.bind_eq_bind, Option.bind_some, ← hrest, ← hcharacter, ← hremark]
  cases r.remark with
  | none => exact ⟨_, rfl, h.moved (push · r.character) hforward hwithin (by simp [hc])⟩
  | some remark =>
    exact ⟨_, rfl,
      h.moved (fun l => (push l r.character).remark remark) hforward hwithin (by simp [hc])⟩

theorem stepData :
    ∃ s', s.stepData s.current = some s' ∧ Lands s s' (s.held.stepData s.held.rest) := by
  cases hc : s.current with
  | none =>
    rw [h.held_of_none hc]
    exact ⟨_, rfl, h.atEnd hc⟩
  | some c =>
    rw [held_of_some hc]
    unfold Scanner.stepData Lexer.stepData
    dsimp only [Lexer.facing]
    split
    · exact h.referTo hc false Lexer.pushText
    · split
      · exact ⟨_, rfl, h.taken _ hc⟩
      · exact ⟨_, rfl, h.taken _ hc⟩

theorem stepRawText (name : String) :
    Lands s (s.stepRawText name s.current) (s.held.stepRawText name s.held.rest) := by
  cases hc : s.current with
  | none =>
    rw [h.held_of_none hc]
    exact h.atEnd hc
  | some c =>
    rw [held_of_some hc]
    unfold Scanner.stepRawText Lexer.stepRawText
    dsimp only [Lexer.facing]
    by_cases hend : (c == '<' && s.atEndTag name) = true
    · obtain ⟨hopen, htag⟩ := Bool.and_eq_true _ _ ▸ hend
      rw [if_pos hend, if_pos hopen, dropEndTag?_ahead, if_pos htag]
      exact h.moved _ (Nat.le_add_right _ _) (add_length_le_of_atEndTag htag) (by simp [hc])
    · have hnone : (if c == '<' then Lexer.dropEndTag? name s.ahead else none) = none := by
        rw [dropEndTag?_ahead]
        simp_all
      rw [if_neg hend, hnone]
      exact h.taken _ hc

theorem declaration {c : Char} (hc : s.current = some c) :
    Lands s s.declaration ((s.lexer.facing (c :: s.ahead)).declaration s.ahead) := by
  by_cases hdash : s.startsWith "--" = true
  · have hahead : s.ahead = '-' :: '-' :: s.input.toList.drop (s.position + 2) :=
      eq_append_drop_of_standsAt hdash
    unfold Scanner.declaration
    rw [if_pos hdash, hahead]
    exact h.moved _ (Nat.le_add_right _ 2) (add_length_le_of_standsAt h.within hdash) (by simp [hc])
  · have hnot : ∀ after, s.ahead ≠ '-' :: '-' :: after :=
      fun after hahead => hdash (startsWith_of_ahead hahead)
    have hletters := dropLetters?_drop s.input s.position "doctype".toList
    unfold Scanner.declaration
    rw [if_neg hdash]
    by_cases hdoctype : s.startsWithLetters "doctype" = true
    · have hdeclared := declared_takeDeclaration (add_length_le_of_standsAt h.within hdoctype)
      rw [if_pos hdoctype, Lexer.declaration_of_doctype _ hnot (hletters.trans (if_pos hdoctype)),
        Lexer.emit_facing, ← hdeclared.raw_eq, ← hdeclared.drop_eq]
      exact h.moved _ (Nat.le_trans (Nat.le_add_right _ _) hdeclared.forward) hdeclared.within
        (by simp [hc])
    · rw [if_neg hdoctype, Lexer.declaration_of_other _ hnot (hletters.trans (if_neg hdoctype))]
      exact h.taken _ hc

theorem stepTagOpen (hs : s.lexer.state = .tagOpen) :
    Lands s (s.stepTagOpen s.current) (s.held.stepTagOpen s.held.rest) := by
  cases hc : s.current with
  | none =>
    rw [h.held_of_none hc]
    exact h.handedEnd hc hs (·.pushText '<') (by decide)
  | some c =>
    rw [held_of_some hc]
    refine .ite (fun _ => h.declaration hc) fun _ => ?_
    refine .ite (fun _ => h.taken _ hc) fun _ => ?_
    refine .ite (fun _ => h.handedOn hc hs (·.startTag false) (Nat.lt_succ_self _)) fun _ => ?_
    refine .ite (fun _ => h.handedOn hc hs _ (Nat.lt_succ_self _)) fun _ => ?_
    exact h.handedOn hc hs _ (Nat.lt_succ_self _)

theorem stepEndTagOpen (hs : s.lexer.state = .endTagOpen) :
    Lands s (s.stepEndTagOpen s.current) (s.held.stepEndTagOpen s.held.rest) := by
  cases hc : s.current with
  | none =>
    rw [h.held_of_none hc]
    exact h.handedEnd hc hs (fun l => (l.pushText '<').pushText '/') (by decide)
  | some c =>
    rw [held_of_some hc]
    refine .ite (fun _ => h.handedOn hc hs (·.startTag true) (Nat.lt_succ_self _)) fun _ => ?_
    refine .ite (fun _ => h.taken _ hc) fun _ => ?_
    exact h.handedOn hc hs _ (Nat.lt_succ_self _)

theorem stepComment : Lands s (s.stepComment s.current) (s.held.stepComment s.held.rest) := by
  cases hc : s.current with
  | none =>
    rw [h.held_of_none hc]
    show Lands s _ (((s.lexer.remark .unterminatedComment).facing []).emitComment []).finish
    rw [Lexer.emitComment_facing, Lexer.finish_facing]
    exact h.finished (fun l => ((l.remark .unterminatedComment).emitComment []).finish) hc rfl
  | some c =>
    rw [held_of_some hc]
    by_cases hend : (c == '-' && s.startsWith "->") = true
    · have hstands := (Bool.and_eq_true _ _ ▸ hend).2
      have hdash : c = '-' := eq_of_beq (Bool.and_eq_true _ _ ▸ hend).1
      have hahead : s.ahead = '-' :: '>' :: s.input.toList.drop (s.position + 2) :=
        eq_append_drop_of_standsAt hstands
      unfold Scanner.stepComment
      dsimp only
      rw [if_pos hend, hahead, hdash]
      show Lands s _ ((s.lexer.facing _).emitComment _)
      rw [Lexer.emitComment_facing]
      exact h.moved _ (Nat.le_add_right _ 2) (add_length_le_of_standsAt h.within hstands)
        (by simp [hc])
    · unfold Scanner.stepComment Lexer.stepComment
      dsimp only
      rw [if_neg hend]
      split
      · next heq => cases heq
      · next cs heq =>
        obtain ⟨rfl, hahead⟩ := List.cons_eq_cons.1 heq
        exact absurd (by rw [startsWith_of_ahead hahead]; rfl) hend
      · next d cs _ heq =>
        obtain ⟨rfl, rfl⟩ := List.cons_eq_cons.1 heq
        exact h.taken _ hc

theorem stepBogusComment :
    Lands s (s.stepBogusComment s.current) (s.held.stepBogusComment s.held.rest) := by
  cases hc : s.current with
  | none =>
    rw [h.held_of_none hc]
    show Lands s _ ((s.lexer.facing []).emitComment []).finish
    rw [Lexer.emitComment_facing, Lexer.finish_facing]
    exact h.finished (fun l => (l.emitComment []).finish) hc rfl
  | some c =>
    rw [held_of_some hc]
    exact .ite (fun _ => h.commentEmitted hc) fun _ => h.taken _ hc

/-! ### Inside of tags -/

theorem stepTagName : Lands s (s.stepTagName s.current) (s.held.stepTagName s.held.rest) := by
  cases hc : s.current with
  | none =>
    rw [h.held_of_none hc]
    exact h.abandoned hc
  | some c =>
    rw [held_of_some hc]
    refine .ite (fun _ => h.taken _ hc) fun _ => ?_
    refine .ite (fun _ => h.taken _ hc) fun _ => ?_
    exact .ite (fun _ => h.tagEmitted hc id) fun _ => h.taken _ hc

theorem stepBeforeAttributeName (hs : s.lexer.state = .beforeAttributeName) :
    Lands s (s.stepBeforeAttributeName s.current) (s.held.stepBeforeAttributeName s.held.rest) := by
  cases hc : s.current with
  | none =>
    rw [h.held_of_none hc]
    exact h.handedEnd hc hs id (by decide)
  | some c =>
    rw [held_of_some hc]
    refine .ite (fun _ => h.stayed hc hs) fun hblank => ?_
    refine .ite (fun hend => h.handedOn hc hs id ?_) fun hend => h.handedOn hc hs _ ?_
    · rw [hops_afterAttributeName_of_ends (by simp [Lexer.endsAttributeName, hend])]
      exact Nat.zero_lt_one
    · rw [hops_attributeName_of_not_ends (by simp_all [Lexer.endsAttributeName])]
      exact Nat.zero_lt_one

theorem stepAttributeName (hs : s.lexer.state = .attributeName) :
    Lands s (s.stepAttributeName s.current) (s.held.stepAttributeName s.held.rest) := by
  cases hc : s.current with
  | none =>
    rw [h.held_of_none hc]
    exact h.handedEnd hc hs id (by decide)
  | some c =>
    rw [held_of_some hc]
    refine .ite (fun hend => h.handedOn hc hs id ?_) fun _ => ?_
    · rw [hops_afterAttributeName_of_ends hend, hops_attributeName_of_ends hend]
      exact Nat.zero_lt_one
    · exact .ite (fun _ => h.taken _ hc) fun _ => h.taken _ hc

theorem stepAfterAttributeName (hs : s.lexer.state = .afterAttributeName) :
    Lands s (s.stepAfterAttributeName s.current) (s.held.stepAfterAttributeName s.held.rest) := by
  cases hc : s.current with
  | none =>
    rw [h.held_of_none hc]
    exact h.abandoned hc
  | some c =>
    rw [held_of_some hc]
    refine .ite (fun _ => h.stayed hc hs) fun hblank => ?_
    refine .ite (fun _ => h.taken _ hc) fun hslash => ?_
    refine .ite (fun _ => h.taken _ hc) fun hequals => ?_
    refine .ite (fun _ => h.tagEmitted hc id) fun hclose => h.handedOn hc hs _ ?_
    have hother : Lexer.endsAttributeName c = false := by simp_all [Lexer.endsAttributeName]
    rw [hops_attributeName_of_not_ends hother, hops_afterAttributeName_of_not_ends hother hequals]
    exact Nat.zero_lt_one

theorem stepBeforeAttributeValue (hs : s.lexer.state = .beforeAttributeValue) :
    Lands s (s.stepBeforeAttributeValue s.current)
      (s.held.stepBeforeAttributeValue s.held.rest) := by
  cases hc : s.current with
  | none =>
    rw [h.held_of_none hc]
    exact h.handedEnd hc hs id (by decide)
  | some c =>
    rw [held_of_some hc]
    refine .ite (fun _ => h.stayed hc hs) fun _ => ?_
    refine .ite (fun _ => h.taken _ hc) fun _ => ?_
    refine .ite (fun _ => h.taken _ hc) fun _ => ?_
    exact .ite (fun _ => h.tagEmitted hc id) fun _ => h.handedOn hc hs id (Nat.lt_succ_self _)

theorem stepAttributeValueQuoted (quote : Quote) :
    ∃ s', s.stepAttributeValueQuoted quote s.current = some s' ∧
      Lands s s' (s.held.stepAttributeValueQuoted quote s.held.rest) := by
  cases hc : s.current with
  | none =>
    rw [h.held_of_none hc]
    exact ⟨_, rfl, h.abandoned hc⟩
  | some c =>
    rw [held_of_some hc]
    unfold Scanner.stepAttributeValueQuoted Lexer.stepAttributeValueQuoted
    dsimp only [Lexer.facing]
    split
    · exact ⟨_, rfl, h.taken _ hc⟩
    · split
      · exact h.referTo hc true pushValue
      · exact ⟨_, rfl, h.taken _ hc⟩

theorem stepAttributeValueUnquoted :
    ∃ s', s.stepAttributeValueUnquoted s.current = some s' ∧
      Lands s s' (s.held.stepAttributeValueUnquoted s.held.rest) := by
  cases hc : s.current with
  | none =>
    rw [h.held_of_none hc]
    exact ⟨_, rfl, h.abandoned hc⟩
  | some c =>
    rw [held_of_some hc]
    unfold Scanner.stepAttributeValueUnquoted Lexer.stepAttributeValueUnquoted
    dsimp only [Lexer.facing]
    split
    · exact ⟨_, rfl, h.taken _ hc⟩
    · split
      · exact h.referTo hc true pushValue
      · split
        · exact ⟨_, rfl, h.tagEmitted hc id⟩
        · exact ⟨_, rfl, h.taken _ hc⟩

theorem stepAfterAttributeValueQuoted (hs : s.lexer.state = .afterAttributeValueQuoted) :
    Lands s (s.stepAfterAttributeValueQuoted s.current)
      (s.held.stepAfterAttributeValueQuoted s.held.rest) := by
  cases hc : s.current with
  | none =>
    rw [h.held_of_none hc]
    exact h.abandoned hc
  | some c =>
    rw [held_of_some hc]
    refine .ite (fun _ => h.taken _ hc) fun _ => ?_
    refine .ite (fun _ => h.taken _ hc) fun _ => ?_
    exact .ite (fun _ => h.tagEmitted hc id) fun _ => h.handedOn hc hs id (Nat.lt_succ_self _)

theorem stepSelfClosingStartTag (hs : s.lexer.state = .selfClosingStartTag) :
    Lands s (s.stepSelfClosingStartTag s.current) (s.held.stepSelfClosingStartTag s.held.rest) := by
  cases hc : s.current with
  | none =>
    rw [h.held_of_none hc]
    exact h.abandoned hc
  | some c =>
    rw [held_of_some hc]
    refine .ite (fun _ => ?_) fun _ => h.handedOn hc hs id (Nat.lt_succ_self _)
    exact h.tagEmitted hc fun l => { l with tag := { l.tag with selfClosing := true } }

end Fetched

/-- A step of a scanner that has fetched a character does what the lexer does in front of it. -/
theorem Fetched.step {s : Scanner} (h : s.Fetched) :
    ∃ s', s.step = some s' ∧ Lands s s' s.held.step := by
  have hstate : s.held.state = s.lexer.state := rfl
  unfold Scanner.step Lexer.step
  rw [hstate]
  cases hs : s.lexer.state with
  | data => exact h.stepData
  | rawText name => exact ⟨_, rfl, h.stepRawText name⟩
  | tagOpen => exact ⟨_, rfl, h.stepTagOpen hs⟩
  | endTagOpen => exact ⟨_, rfl, h.stepEndTagOpen hs⟩
  | tagName => exact ⟨_, rfl, h.stepTagName⟩
  | beforeAttributeName => exact ⟨_, rfl, h.stepBeforeAttributeName hs⟩
  | attributeName => exact ⟨_, rfl, h.stepAttributeName hs⟩
  | afterAttributeName => exact ⟨_, rfl, h.stepAfterAttributeName hs⟩
  | beforeAttributeValue => exact ⟨_, rfl, h.stepBeforeAttributeValue hs⟩
  | attributeValueQuoted quote => exact h.stepAttributeValueQuoted quote
  | attributeValueUnquoted => exact h.stepAttributeValueUnquoted
  | afterAttributeValueQuoted => exact ⟨_, rfl, h.stepAfterAttributeValueQuoted hs⟩
  | selfClosingStartTag => exact ⟨_, rfl, h.stepSelfClosingStartTag hs⟩
  | comment => exact ⟨_, rfl, h.stepComment⟩
  | bogusComment => exact ⟨_, rfl, h.stepBogusComment⟩

end Scanner

end UniqueSelector.Markup
