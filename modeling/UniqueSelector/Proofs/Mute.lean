import UniqueSelector.Proofs.Rendering

/-!
# Mute — fragments that stand for nothing

A tag without a name writes a fragment that no reader takes, and so does a place that does not
fit into 32 bits. In a row of children such a fragment spoils the whole text: it is no selector
any more.
-/

namespace UniqueSelector

open Selector

/-! ## 1. Texts that are no selectors -/

/-- No complex selector is read where the text begins. -/
def Dead (cs : List Char) : Prop :=
  ¬Opens (skipBlanks cs) ∨ ∀ total s rest ws, readLinked total (skipBlanks cs) ≠ .ok s rest ws

theorem skipBlanks_eq_nil_or (cs : List Char) :
    skipBlanks cs = [] ∨ ∃ c rest, skipBlanks cs = c :: rest ∧ isBlank c = false := by
  cases h : skipBlanks cs with
  | nil => exact .inl rfl
  | cons c rest =>
    have hhead := List.head?_dropWhile_not isBlank cs
    rw [← skipBlanks, h] at hhead
    exact .inr ⟨c, rest, rfl, by simpa using hhead⟩

/-- Where nothing opens, the text ends, or a comma or a sign stands. -/
theorem of_not_opens {cs : List Char} (h : ¬Opens (skipBlanks cs)) :
    skipBlanks cs = [] ∨ ∃ c rest, skipBlanks cs = c :: rest ∧
      (c = ',' ∨ (signOf? c).isSome = true) := by
  rcases skipBlanks_eq_nil_or cs with hnil | ⟨c, rest, hcs, hblank⟩
  · exact .inl hnil
  · refine .inr ⟨c, rest, hcs, ?_⟩
    by_contra hne
    rw [not_or, Bool.not_eq_true, Option.isSome_eq_false_iff, Option.isNone_iff_eq_none] at hne
    exact h ⟨c, rest, hcs, hblank, hne.1, hne.2⟩

theorem readSimple_sign {c : Char} (h : (signOf? c).isSome = true) (total : Nat) (cs : List Char) :
    readHead (c :: cs) = ([], c :: cs) ∧ readSimple total (c :: cs) = none := by
  have hcases : c = '>' ∨ c = '+' ∨ c = '~' := by
    rw [signOf?.eq_def] at h
    split at h
    · exact .inl rfl
    · exact .inr (.inl rfl)
    · exact .inr (.inr rfl)
    · cases h
  rcases hcases with rfl | rfl | rfl <;>
    exact ⟨readHead_of_not_startsName (by decide) (by rfl), by rfl⟩

/-- Without a head and a sign of its own, a compound is empty. -/
theorem readCompound_of_none {total : Nat} {cs : List Char} (hhead : readHead cs = ([], cs))
    (hsimple : readSimple total cs = none) : readCompound total cs = .fail (faultAt total cs) := by
  rw [readCompound, hhead, readSimples_of_none hsimple, Reading.pure_bind]
  rfl

theorem readLinked_of_fail {total : Nat} {cs : List Char} {f : Fault}
    (h : readCompound total cs = .fail f) :
    readLinked total cs = .fail f := by
  rw [readLinked, h, Reading.fail_bind]

theorem readComplex_ne_ok {cs : List Char} (h : Dead cs) (total : Nat) (s : Selector.Complex)
    (rest : List Char) (ws : List Warning) : readComplex total cs ≠ .ok s rest ws := by
  rw [readComplex]
  show (if (skipBlanks cs).isEmpty || (skipBlanks cs).head? == some ',' then _
    else readLinked total (skipBlanks cs)) ≠ _
  by_cases hopens : Opens (skipBlanks cs)
  · have hread := h.resolve_left (not_not_intro hopens) total s rest ws
    split
    · exact fun h => by cases h
    · exact hread
  · rcases of_not_opens hopens with hcs | ⟨c, more, hcs, rfl | hsign⟩
    · rw [hcs]
      exact fun h => by cases h
    · rw [hcs]
      exact fun h => by cases h
    · have hsimple := readSimple_sign hsign total more
      rw [hcs, readLinked_of_fail (readCompound_of_none hsimple.1 hsimple.2)]
      split <;> exact fun h => by cases h

theorem parse_ne_ok {text : String} (h : Dead text.toList) (l : Selectors) :
    parse text ≠ .ok l := by
  intro hparse
  obtain ⟨rest, ws, hl⟩ := parse_eq_ok.1 hparse
  rw [readSelectors_eq] at hl
  obtain ⟨s, more, vs, us, hread, -⟩ := Reading.bind_eq_ok hl
  exact readComplex_ne_ok h _ _ _ _ hread

/-! ## 2. Rows of children -/

/-- What is dead stays dead below a fragment that is read. -/
theorem Reads.dead_child {text : List Char} {c : Compound} (h : Reads text c) {cs : List Char}
    (hdead : Dead cs) :
    Dead (text ++ ' ' :: '>' :: ' ' :: cs) := by
  right
  intro total s rest ws
  rw [(h.opens _).skipBlanks]
  -- Whether or not a number takes the first blank, the sign is read and the dead text stands
  -- behind it.
  have hstops : Stops (' ' :: '>' :: ' ' :: cs) := stops_cons (.inl rfl) _
  have hleft : ∃ left, readCompound total (text ++ ' ' :: '>' :: ' ' :: cs) = .pure c left ∧
      readCombinator total left = .pure (some .child) (skipBlanks cs) := by
    by_cases hopen : breaksOff text = true
    · have hleft : leftBehind text (' ' :: '>' :: ' ' :: cs) = '>' :: ' ' :: cs := if_pos hopen
      exact ⟨_, h.reads hstops hleft (stops_cons (.inr (.inl rfl)) _) total,
        readCombinator_sign total _⟩
    · have hleft : leftBehind text (' ' :: '>' :: ' ' :: cs) = ' ' :: '>' :: ' ' :: cs :=
        if_neg hopen
      exact ⟨_, h.reads hstops hleft hstops total,
        (readCombinator_blank total _).trans (readCombinator_sign total _)⟩
  obtain ⟨left, hcompound, hcombinator⟩ := hleft
  intro hread
  by_cases hopens : Opens (skipBlanks cs)
  · -- Something opens there but is never read to an end.
    rw [readLinked_of_readCombinator hcompound hcombinator hopens] at hread
    obtain ⟨s', rest', ws', _, hread, -⟩ := Reading.bind_eq_ok hread
    exact hdead.resolve_left (not_not_intro hopens) total s' rest' ws' hread
  · -- Nothing opens there, so the operand of the sign is missing.
    have hoperand : ∃ f, readOperand total (skipBlanks cs) = .fail f := by
      rcases of_not_opens hopens with hcs | ⟨c, more, hcs, hsign⟩
      · rw [hcs]
        exact ⟨_, rfl⟩
      · rw [hcs, readOperand, if_pos (by simpa using hsign)]
        exact ⟨_, rfl⟩
    obtain ⟨f, hf⟩ := hoperand
    obtain ⟨_, middle, _, _, _, hfirst, hchain, -⟩ := readLinked_eq_ok hread
    rw [hcompound] at hfirst
    cases hfirst
    rw [readChain_eq, readLink, hcombinator, Reading.pure_bind] at hchain
    dsimp only at hchain
    rw [hf, Reading.fail_bind, Reading.fail_bind] at hchain
    cases hchain

/-- The fragment of the candidate is dead wherever it stands in a row of children. -/
def Candidate.Mute (c : Candidate) : Prop :=
  ∀ rest, (rest = [] ∨ ∃ cs, rest = ' ' :: '>' :: ' ' :: cs) → Dead (c.fragment.toList ++ rest)

namespace Path

theorem dead_renderFrom {path : Path} (hpath : ∀ c ∈ path, c.Legible ∨ c.Mute) {nearer : Candidate}
    (hlevels : (nearer :: path).IsChain fun nearer farther => nearer.level + 1 = farther.level)
    {text : String} (h : Dead text.toList ∨ ∃ c ∈ path, c.Mute) :
    Dead (renderFrom text nearer path).toList := by
  -- The text so far is dead, or the mute fragment is still to come farther out.
  induction path generalizing nearer text with
  | nil => exact h.resolve_right (by simp)
  | cons farther path ih =>
    rw [List.isChain_cons_cons] at hlevels
    have htext : (farther.fragment ++ joint nearer farther ++ text).toList =
        farther.fragment.toList ++ ' ' :: '>' :: ' ' :: text.toList := by
      rw [String.toList_append, String.toList_append, toList_joint_child hlevels.1]
      simp
    have hmute : farther.Mute → Dead (farther.fragment ++ joint nearer farther ++ text).toList :=
      fun hmute => by
      rw [htext]
      exact hmute _ (.inr ⟨_, rfl⟩)
    apply ih (fun c h => hpath c (.tail _ h)) hlevels.2
    rcases h with h | ⟨c, hc, hmutec⟩
    · left
      rcases hpath farther (.head path) with hlegible | hfarther
      · rw [htext]
        exact hlegible.reads.dead_child h
      · exact hmute hfarther
    · rcases List.mem_cons.1 hc with rfl | hc
      · exact .inl (hmute hmutec)
      · exact .inr ⟨c, hc, hmutec⟩

/-- One mute fragment in a row of children, and the text is no selector. -/
theorem parse_render_ne_ok {target : Candidate} {path : Path}
    (hpath : ∀ c ∈ target :: path, c.Legible ∨ c.Mute)
    (hlevels : (target :: path).IsChain fun nearer farther => nearer.level + 1 = farther.level)
    (h : ∃ c ∈ target :: path, c.Mute) (l : Selectors) :
    parse (render (target :: path)) ≠ .ok l := by
  apply parse_ne_ok
  apply dead_renderFrom (fun c h => hpath c (.tail _ h)) hlevels
  obtain ⟨c, hc, hmute⟩ := h
  rcases List.mem_cons.1 hc with rfl | hc
  · have hdead := hmute [] (.inl rfl)
    rw [List.append_nil] at hdead
    exact .inl hdead
  · exact .inr ⟨c, hc, hmute⟩

end Path

end UniqueSelector
