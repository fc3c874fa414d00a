import UniqueSelector.Proofs.ScannerSteps

/-!
# Scanner runs — the scanner comes to an end inside of its text

Every turn leads to a scanner that is sound again. A turn that does not come to a later position
comes nearer to one, or to the end, so four rounds are enough; and the lexer in front of the scanner
bounds the rounds in all.
-/

namespace UniqueSelector.Markup

namespace Scanner

/-! ## Turns -/

/-- What holds between two turns. A character that is looked at again is one step from being taken
at most, and the end of the text is looked at again only where nothing is left. -/
structure Sound (s : Scanner) : Prop where
  within : s.position ≤ s.input.size
  ended : s.again = true → s.current = none → s.position = s.input.size
  patient : s.again = true → hops s.lexer.state s.current ≤ 1

/-- How many turns may pass before the position grows or the scanner finishes. -/
def delay (s : Scanner) : Nat :=
  if s.lexer.finished then 0
  else if s.position = s.input.size ∧ (s.again = true → s.current = none) then
    hops s.lexer.state none + 1
  else if s.again then hops s.lexer.state s.current + 3
  else 1

theorem Sound.delay_le {s : Scanner} (h : s.Sound) : s.delay ≤ 4 := by
  have hnone := hops_none_le s.lexer.state
  unfold delay
  split
  · omega
  · split
    · omega
    · split
      · next hagain =>
        have := h.patient hagain
        omega
      · omega

/-- What a turn makes of a scanner. -/
structure Turned (s s' : Scanner) : Prop where
  view_eq : s'.view = s.view.step
  input_eq : s'.input = s.input
  sound : s'.Sound
  forward : s.position ≤ s'.position
  handed : s.again = true → s'.again = true →
    hops s'.lexer.state s'.current < hops s.lexer.state s.current
  onward : s.lexer.finished = false → s.position < s'.position ∨ s'.delay < s.delay

theorem fetch_of_again {s : Scanner} (hagain : s.again = true) :
    s.fetch = { s with again := false } := if_pos hagain

theorem fetch_of_end {s : Scanner} (hagain : s.again = false) (h : s.position = s.input.size) :
    s.fetch = { s with current := none } := by
  have hnone : s.input[s.position]? = none := Array.getElem?_eq_none_iff.2 (by omega)
  unfold fetch
  rw [if_neg (by simp [hagain]), hnone]

theorem fetch_of_lt {s : Scanner} (hagain : s.again = false) (h : s.position < s.input.size) :
    s.fetch = { s with current := some s.input[s.position], position := s.position + 1 } := by
  unfold fetch
  rw [if_neg (by simp [hagain]), Array.getElem?_eq_getElem h]

/-- The character of the turn stands before the characters behind it, as it did before. -/
theorem Sound.fetch {s : Scanner} (h : s.Sound) : s.fetch.Fetched ∧ s.fetch.held = s.view := by
  by_cases hagain : s.again = true
  · rw [fetch_of_again hagain]
    refine ⟨⟨rfl, h.within, h.ended hagain⟩, ?_⟩
    unfold held view
    rw [if_pos hagain]
    rfl
  · have hagain : s.again = false := by simpa using hagain
    rcases Nat.lt_or_eq_of_le h.within with hlt | hend
    · rw [fetch_of_lt hagain hlt]
      refine ⟨⟨hagain, hlt, fun hnone => by cases hnone⟩, ?_⟩
      unfold held view ahead
      rw [hagain, drop_of_some (Array.getElem?_eq_getElem hlt)]
      rfl
    · rw [fetch_of_end hagain hend]
      refine ⟨⟨hagain, h.within, fun _ => hend⟩, ?_⟩
      unfold held view
      rw [hagain]
      rfl

theorem fetch_lexer (s : Scanner) : s.fetch.lexer = s.lexer := by
  unfold Scanner.fetch
  repeat' split
  all_goals rfl

theorem fetch_input (s : Scanner) : s.fetch.input = s.input := by
  unfold Scanner.fetch
  repeat' split
  all_goals rfl

theorem le_fetch_position (s : Scanner) : s.position ≤ s.fetch.position := by
  unfold Scanner.fetch
  split
  · exact Nat.le_refl _
  · split
    · exact Nat.le_refl _
    · exact Nat.le_succ _

/-- At the end of the text, which is looked at for the first time or once more, there is
no character. -/
theorem Sound.fetch_current {s : Scanner} (hend : s.position = s.input.size)
    (hagain : s.again = true → s.current = none) :
    s.fetch.current = none ∧ s.fetch.position = s.position := by
  by_cases h : s.again = true
  · rw [fetch_of_again h]
    exact ⟨hagain h, rfl⟩
  · rw [fetch_of_end (by simpa using h) hend]
    exact ⟨rfl, rfl⟩

theorem delay_of_finished {s : Scanner} (h : s.lexer.finished = true) : s.delay = 0 := if_pos h

theorem delay_of_end {s : Scanner} (h : s.lexer.finished = false) (hend : s.position = s.input.size)
    (hagain : s.again = true → s.current = none) : s.delay = hops s.lexer.state none + 1 := by
  unfold delay
  rw [if_neg (by simp [h]), if_pos ⟨hend, hagain⟩]

theorem delay_of_again {s : Scanner} (h : s.lexer.finished = false) (hagain : s.again = true)
    (hc : s.current ≠ none) :
    s.delay = hops s.lexer.state s.current + 3 := by
  unfold delay
  rw [if_neg (by simp [h]), if_neg fun hend => hc (hend.2 hagain), if_pos hagain]

theorem delay_lt_of_once {s : Scanner} (hagain : s.again = false) : s.delay < 3 := by
  have hnone := hops_none_le s.lexer.state
  unfold delay
  rw [hagain, if_neg Bool.false_ne_true]
  repeat' split
  all_goals omega

theorem Sound.onward {s s' : Scanner} (h : s.Sound) (hlands : Lands s.fetch s' s.view.step)
    (hworking : s.lexer.finished = false) : s.position < s'.position ∨ s'.delay < s.delay := by
  by_cases hfinished : s'.lexer.finished = true
  · right
    rw [delay_of_finished hfinished]
    unfold delay
    rw [if_neg (by simp [hworking])]
    repeat' split
    all_goals omega
  have hworking' : s'.lexer.finished = false := by simpa using hfinished
  by_cases hend : s.position = s.input.size ∧ (s.again = true → s.current = none)
  · -- There is no character, so it is handed on, to a state that is nearer to the end.
    right
    obtain ⟨hcurrent, hposition⟩ := Sound.fetch_current hend.1 hend.2
    obtain ⟨hcurrent', hposition', hhops⟩ :=
      hlands.handed ((hlands.ended hcurrent).resolve_right hfinished)
    rw [hcurrent, fetch_lexer] at hhops
    rw [delay_of_end hworking hend.1 hend.2,
      delay_of_end hworking' ?_ fun _ => hcurrent'.trans hcurrent]
    · omega
    · rw [hposition', hposition, hend.1, hlands.input_eq, fetch_input]
  by_cases hagain : s.again = true
  · have hcurrent : s.current ≠ none := fun hnone => hend ⟨h.ended hagain hnone, fun _ => hnone⟩
    right
    rw [delay_of_again hworking hagain hcurrent]
    by_cases hagain' : s'.again = true
    · obtain ⟨hcurrent', -, hhops⟩ := hlands.handed hagain'
      rw [fetch_of_again hagain] at hcurrent' hhops
      rw [delay_of_again hworking' hagain' (hcurrent' ▸ hcurrent), hcurrent']
      dsimp only at hhops ⊢
      omega
    · have := delay_lt_of_once (by simpa using hagain' : s'.again = false)
      omega
  · -- A character is fetched.
    left
    have hagain : s.again = false := by simpa using hagain
    have hlt : s.position < s.input.size :=
      Nat.lt_of_le_of_ne h.within fun heq => hend ⟨heq, by simp [hagain]⟩
    have hforward := hlands.forward
    rw [fetch_of_lt hagain hlt] at hforward
    exact hforward

theorem Sound.turn {s : Scanner} (h : s.Sound) : ∃ s', s.turn = some s' ∧ Turned s s' := by
  obtain ⟨hfetched, hheld⟩ := h.fetch
  obtain ⟨s', hstep, hlands⟩ := hfetched.step
  rw [hheld] at hlands
  have hinput : s'.input = s.input := hlands.input_eq.trans s.fetch_input
  refine ⟨s', hstep, hlands.view_eq, hinput, ⟨hlands.within, ?_, ?_⟩, ?_, ?_, h.onward hlands⟩
  · intro hagain hnone
    obtain ⟨hcurrent, hposition, -⟩ := hlands.handed hagain
    rw [hposition, hfetched.ended (hcurrent ▸ hnone), hlands.input_eq]
  · intro hagain
    obtain ⟨hcurrent, -, hhops⟩ := hlands.handed hagain
    have := hops_le s.fetch.lexer.state s.fetch.current
    rw [hcurrent]
    omega
  · exact Nat.le_trans s.le_fetch_position hlands.forward
  · intro hagain hagain'
    obtain ⟨hcurrent, -, hhops⟩ := hlands.handed hagain'
    rw [fetch_of_again hagain] at hcurrent hhops
    rwa [hcurrent]

/-! ## The loop -/

theorem sound_ofString (html : String) : (ofString html).Sound where
  within := Nat.zero_le _
  ended hagain := by cases hagain
  patient hagain := by cases hagain

theorem view_finished (s : Scanner) : s.view.finished = s.lexer.finished := rfl

theorem view_ofString (html : String) : (ofString html).view = Lexer.ofString html := rfl

theorem behind_of_finished {s : Scanner} (h : s.lexer.finished = true) (n : Nat) :
    s.behind n = some s := by
  cases n with
  | zero => rfl
  | succ n => exact if_pos h

theorem behind_succ {s s' : Scanner} (h : s.lexer.finished = false) (hturn : s.turn = some s')
    (n : Nat) :
    s.behind (n + 1) = s'.behind n := by
  rw [behind, if_neg (by simp [h]), hturn, Option.bind_some]

/-- What so many rounds make of a scanner: it is sound, inside the same text, and the lexer before
it comes to the same end. -/
structure Came (s s' : Scanner) (rounds : Nat) : Prop where
  sound : s'.Sound
  input_eq : s'.input = s.input
  forward : s.position ≤ s'.position
  run_eq : s'.view.run = s.view.run
  finished : s.view.pending ≤ rounds → s'.lexer.finished = true

theorem Sound.behind {s : Scanner} (h : s.Sound) (rounds : Nat) :
    ∃ s', s.behind rounds = some s' ∧ Came s s' rounds := by
  induction rounds generalizing s with
  | zero =>
    refine ⟨s, rfl, h, rfl, Nat.le_refl _, rfl, fun hpending => ?_⟩
    by_contra hworking
    rw [Lexer.pending, view_finished, if_neg hworking] at hpending
    omega
  | succ rounds ih =>
    by_cases hfinished : s.lexer.finished = true
    · exact ⟨s, behind_of_finished hfinished _, h, rfl, Nat.le_refl _, rfl, fun _ => hfinished⟩
    · have hworking : s.lexer.finished = false := by simpa using hfinished
      obtain ⟨s₁, hturn, hturned⟩ := h.turn
      obtain ⟨s', hbehind, hcame⟩ := ih hturned.sound
      have hpending := s.view.step_pending_lt hworking
      rw [behind_succ hworking hturn]
      refine ⟨s', hbehind, hcame.sound, hcame.input_eq.trans hturned.input_eq,
        Nat.le_trans hturned.forward hcame.forward, ?_, fun hle => hcame.finished ?_⟩
      · rw [hcame.run_eq, hturned.view_eq, Lexer.run.eq_1 s.view, view_finished, if_neg hfinished]
      · rw [hturned.view_eq]
        omega

theorem Sound.came {s s' : Scanner} (h : s.Sound) {rounds : Nat}
    (hbehind : s.behind rounds = some s') :
    Came s s' rounds := by
  obtain ⟨t, ht, hcame⟩ := h.behind rounds
  rw [hbehind, Option.some_inj] at ht
  rwa [ht]

theorem Sound.turned {s s' : Scanner} (h : s.Sound) (hturn : s.turn = some s') : Turned s s' := by
  obtain ⟨t, ht, hturned⟩ := h.turn
  rw [hturn, Option.some_inj] at ht
  rwa [ht]

theorem one_le_delay {s : Scanner} (h : s.lexer.finished = false) : 1 ≤ s.delay := by
  unfold delay
  rw [if_neg (by simp [h])]
  repeat' split
  all_goals omega

/-- Within its delay the scanner finishes or comes to a later position. -/
theorem Sound.later {s s' : Scanner} (h : s.Sound) {rounds : Nat} (hdelay : s.delay ≤ rounds)
    (hbehind : s.behind rounds = some s') :
    s.position < s'.position ∨ s'.lexer.finished = true := by
  induction rounds generalizing s with
  | zero =>
    cases hbehind
    right
    by_contra hfinished
    have := one_le_delay (by simpa using hfinished)
    omega
  | succ rounds ih =>
    by_cases hfinished : s.lexer.finished = true
    · rw [behind_of_finished hfinished, Option.some_inj] at hbehind
      exact .inr (hbehind ▸ hfinished)
    · have hworking : s.lexer.finished = false := by simpa using hfinished
      obtain ⟨s₁, hturn, hturned⟩ := h.turn
      rw [behind_succ hworking hturn] at hbehind
      rcases hturned.onward hworking with hlt | hlt
      · exact .inl (Nat.lt_of_lt_of_le hlt (hturned.sound.came hbehind).forward)
      · exact (ih hturned.sound (by omega) hbehind).imp_left (Nat.lt_of_le_of_lt hturned.forward)

/-- **The scanner comes to an end inside of its text**, and there it has the tokens of the lexer. -/
structure Ends (html : String) : Prop where
  /-- No text is taken from behind the end, and the position stays inside of the text. -/
  inside : ∀ rounds, ∃ s, (ofString html).behind rounds = some s ∧ s.position ≤ html.length
  finishes : ∃ s, (ofString html).behind (4 * html.length + 1) = some s ∧ s.lexer.finished = true ∧
    s.lexer.tokens = (lex html).tokens ∧ s.lexer.remarks = (lex html).remarks
  /-- A character is looked at again twice at most. -/
  patient : ∀ {rounds s₀ s₁ s₂}, (ofString html).behind rounds = some s₀ → s₀.turn = some s₁ →
    s₁.turn = some s₂ → ¬(s₀.again = true ∧ s₁.again = true ∧ s₂.again = true)
  /-- Four rounds later the position has grown, or the scanner is finished. -/
  onward : ∀ {rounds s s'}, (ofString html).behind rounds = some s → s.behind 4 = some s' →
    s.position < s'.position ∨ s'.lexer.finished = true

theorem size_ofString (html : String) : (ofString html).input.size = html.length := by
  show html.toList.toArray.size = html.length
  rw [List.size_toArray, String.length_toList]

theorem ends_ofString (html : String) : Ends html where
  inside rounds := by
    obtain ⟨s, hbehind, hcame⟩ := (sound_ofString html).behind rounds
    have hwithin := hcame.sound.within
    rw [hcame.input_eq, size_ofString] at hwithin
    exact ⟨s, hbehind, hwithin⟩
  finishes := by
    obtain ⟨s, hbehind, hcame⟩ := (sound_ofString html).behind (4 * html.length + 1)
    have hpending : (ofString html).view.pending = 4 * html.length + 1 := by
      show 4 * html.toList.length + 0 + 1 = _
      rw [String.length_toList]
    have hfinished := hcame.finished (Nat.le_of_eq hpending)
    have hlex : s.view = lex html := by
      rw [lex, ← view_ofString, ← hcame.run_eq, Lexer.run.eq_1, view_finished, if_pos hfinished]
    exact ⟨s, hbehind, hfinished, by rw [← hlex]; rfl, by rw [← hlex]; rfl⟩
  patient := by
    rintro rounds s₀ s₁ s₂ hbehind hturn₁ hturn₂ ⟨h₀, h₁, h₂⟩
    have hsound := ((sound_ofString html).came hbehind).sound
    have hturned₁ := hsound.turned hturn₁
    have hturned₂ := hturned₁.sound.turned hturn₂
    have hpatient := hsound.patient h₀
    have hhops₁ := hturned₁.handed h₀ h₁
    have hhops₂ := hturned₂.handed h₁ h₂
    omega
  onward hbehind hlater :=
    have hsound := ((sound_ofString html).came hbehind).sound
    hsound.later hsound.delay_le hlater

end Scanner

end UniqueSelector.Markup
