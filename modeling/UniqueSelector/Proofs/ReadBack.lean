import UniqueSelector.Proofs.Escaped
import UniqueSelector.Selector.CompoundReader

/-!
# Read back — pieces as the reader sees them

The reader of names and the reader of strings take each piece for the character that it means. The
reader of names also takes one blank behind a number that ends the pieces, whether the number asked
for it or not; what follows the name then stands directly behind it (`behind`).
-/

namespace UniqueSelector.Selector

/-! ## 1. Numbers -/

/-- No digit in base sixteen comes first. -/
def NoDigitFirst (cs : List Char) : Prop := ∀ c ∈ cs.head?, isHexDigit c = false

theorem noDigitFirst_cons {c : Char} (h : isHexDigit c = false) (cs : List Char) :
    NoDigitFirst (c :: cs) := by
  intro d hd
  cases hd
  exact h

theorem takeWhile_take_append {more rest : List Char} {k : Nat}
    (hmore : ∀ c ∈ more, isHexDigit c = true) (hlength : more.length ≤ k)
    (hrest : NoDigitFirst rest) :
    ((more ++ rest).take k).takeWhile isHexDigit = more := by
  -- What is left of the six characters begins with no digit, or nothing is left of them.
  have hstop : (rest.take (k - more.length)).takeWhile isHexDigit = [] := by
    cases rest with
    | nil => rw [List.take_nil, List.takeWhile_nil]
    | cons c cs =>
      have hc : isHexDigit c = false := hrest c rfl
      cases k - more.length with
      | zero => rfl
      | succ m => rw [List.take_succ_cons, List.takeWhile_cons_of_neg (by simp [hc])]
  rw [List.take_append, List.take_of_length_le hlength, List.takeWhile_append_of_pos hmore, hstop,
    List.append_nil]

theorem readEscape_hexCapitals {n : Nat} (hn : n < 16 ^ 6) {rest : List Char}
    (hrest : NoDigitFirst rest) :
    readEscape (hexCapitals n ++ rest) = (charOf n, dropBlank rest) := by
  have hlength := hexCapitals_length_le (by decide) hn
  have hhex : ∀ c ∈ hexCapitals n, isHexDigit c = true := fun c => isHexDigit_of_mem_hexCapitals
  have hvalue := numberOf_hexCapitals n
  obtain ⟨d, ds, hds, -⟩ := hexCapitals_eq_cons n
  rw [hds] at hlength hhex hvalue
  have hmore : ((ds ++ rest).take 5).takeWhile isHexDigit = ds := by
    refine takeWhile_take_append (fun c h => hhex c (.tail d h)) ?_ hrest
    rw [List.length_cons] at hlength
    omega
  rw [hds, List.cons_append, readEscape, if_pos (hhex d (.head ds))]
  simp only [hmore, hvalue, List.drop_left]

theorem readEscape_of_not_isHexDigit {c : Char} (hc : isHexDigit c = false) (cs : List Char) :
    readEscape (c :: cs) = (c, cs) := by
  rw [readEscape, if_neg (by simp [hc])]

theorem exists_written_cons {p : Piece} (hp : p.Sound) (ps : List Piece) :
    ∃ c cs, written (p :: ps) = c :: cs ∧ isPrintable c = true := by
  cases p with
  | plain c => exact ⟨c, written ps, rfl, hp.1⟩
  | sign c => exact ⟨'\\', c :: written ps, rfl, by decide⟩
  | number n => exact ⟨'\\', hexCapitals n ++ spaced (written ps), rfl, by decide⟩

/-- Between two pieces the reader ends a number where the escaper ended it. -/
theorem readEscape_number {n : Nat} (hn : n < 16 ^ 6) {p : Piece} (hp : p.Sound) (ps : List Piece)
    (rest : List Char) :
    readEscape (hexCapitals n ++ (spaced (written (p :: ps)) ++ rest)) =
      (charOf n, written (p :: ps) ++ rest) := by
  obtain ⟨c, cs, hwritten, hprintable⟩ := exists_written_cons hp ps
  rw [hwritten, spaced]
  -- With a blank the reader drops it; without one the next character is neither digit nor blank.
  split
  · rw [List.cons_append, readEscape_hexCapitals hn (noDigitFirst_cons (by decide) _)]
    rfl
  · next h =>
    rw [needsBlank, Bool.or_eq_true, not_or, Bool.not_eq_true] at h
    have hblank : isBlank c = false := by
      rw [isBlank_of_isPrintable hprintable]
      simpa using h.2
    rw [List.cons_append, readEscape_hexCapitals hn (noDigitFirst_cons h.1 _), dropBlank,
      if_neg (by simp [hblank])]

/-! ## 2. Names -/

/-- Whether a row of pieces breaks off with a number. -/
def endsInNumber : List Piece → Bool
  | [] => false
  | [.number _] => true
  | _ :: ps => endsInNumber ps

/-- What the reader of a name goes on with behind the pieces: a number at their end takes
one blank. -/
def behind (ps : List Piece) (rest : List Char) : List Char :=
  if endsInNumber ps then dropBlank rest else rest

theorem endsInNumber_cons_cons (p q : Piece) (ps : List Piece) :
    endsInNumber (p :: q :: ps) = endsInNumber (q :: ps) := by
  cases p <;> rfl

theorem behind_cons_cons (p q : Piece) (ps : List Piece) (rest : List Char) :
    behind (p :: q :: ps) rest = behind (q :: ps) rest := by
  rw [behind, behind, endsInNumber_cons_cons]

theorem endsInNumber_plain (c : Char) (ps : List Piece) :
    endsInNumber (.plain c :: ps) = endsInNumber ps := by
  cases ps <;> rfl

theorem endsInNumber_sign (c : Char) (ps : List Piece) :
    endsInNumber (.sign c :: ps) = endsInNumber ps := by
  cases ps <;> rfl

theorem behind_plain (c : Char) (ps : List Piece) (rest : List Char) :
    behind (.plain c :: ps) rest = behind ps rest := by
  rw [behind, behind, endsInNumber_plain]

theorem behind_sign (c : Char) (ps : List Piece) (rest : List Char) :
    behind (.sign c :: ps) rest = behind ps rest := by
  rw [behind, behind, endsInNumber_sign]

theorem readName_cons {c : Char} (hc : isNameChar c = true) (cs : List Char) :
    readName (c :: cs) = (c :: (readName cs).1, (readName cs).2) := by
  rw [readName.eq_def]
  simp only [hc, if_true]

theorem readName_slash {c : Char} (hc : isLineBreak c = false) (cs : List Char) :
    readName ('\\' :: c :: cs) =
      ((readEscape (c :: cs)).1 :: (readName (readEscape (c :: cs)).2).1,
        (readName (readEscape (c :: cs)).2).2) := by
  have hchar : isNameChar '\\' = false := by decide
  rw [readName.eq_def]
  simp only [hchar, hc, Bool.false_eq_true, if_false, beq_self_eq_true, if_true]

/-- A name ends where neither a name character nor a backslash stands. -/
theorem readName_stop {cs : List Char} (h : ∀ c ∈ cs.head?, isNameChar c = false ∧ c ≠ '\\') :
    readName cs = ([], cs) := by
  cases cs with
  | nil => rw [readName]
  | cons c cs =>
    obtain ⟨hchar, hslash⟩ := h c rfl
    rw [readName.eq_def]
    simp only [hchar, Bool.false_eq_true, if_false, beq_iff_eq, hslash]

/-- **Pieces are read as what they mean**, and the name goes on with what is behind them. -/
theorem readName_written {ps : List Piece} (hps : ∀ p ∈ ps, p.InName) {rest : List Char}
    (hrest : endsInNumber ps = true → NoDigitFirst rest) :
    readName (written ps ++ rest) =
      (ps.map Piece.value ++ (readName (behind ps rest)).1, (readName (behind ps rest)).2) := by
  induction ps with
  | nil => rfl
  | cons p ps ih =>
    have hp := hps p (.head ps)
    have htail : ∀ p ∈ ps, p.InName := fun p h => hps p (.tail _ h)
    cases p with
    | plain c =>
      rw [endsInNumber_plain] at hrest
      rw [written, List.cons_append, readName_cons (hp.2 c rfl), ih htail hrest, behind_plain]
      rfl
    | sign c =>
      rw [endsInNumber_sign] at hrest
      rw [written, List.cons_append, List.cons_append,
        readName_slash (isLineBreak_of_isPrintable hp.1.1), readEscape_of_not_isHexDigit hp.1.2,
        ih htail hrest, behind_sign]
      rfl
    | number n =>
      -- Only as the last piece does a number look at what follows the name.
      have hread : readEscape (hexCapitals n ++ (spaced (written ps) ++ rest)) =
          (charOf n, if ps = [] then dropBlank rest else written ps ++ rest) := by
        cases ps with
        | nil => exact readEscape_hexCapitals hp.1 (hrest rfl)
        | cons q qs => exact readEscape_number hp.1 (htail q (.head qs)).1 qs rest
      have hslash : ∀ cs, readName ('\\' :: (hexCapitals n ++ cs)) =
          ((readEscape (hexCapitals n ++ cs)).1 ::
            (readName (readEscape (hexCapitals n ++ cs)).2).1,
            (readName (readEscape (hexCapitals n ++ cs)).2).2) := by
        intro cs
        obtain ⟨d, ds, hds, hd⟩ := hexCapitals_eq_cons n
        rw [hds, List.cons_append]
        exact readName_slash (isLineBreak_of_isPrintable (isPrintable_of_isHexDigit hd)) (ds ++ cs)
      rw [written, List.cons_append, List.append_assoc, hslash, hread]
      cases ps with
      | nil => rfl
      | cons q qs =>
        rw [if_neg (List.cons_ne_nil q qs), behind_cons_cons,
          ih htail (fun h => hrest (by rwa [endsInNumber_cons_cons]))]
        rfl

/-! ### The start of a name -/

theorem startsName_of_isNameStart {c : Char} (hc : isNameStart c = true) (cs : List Char) :
    startsName (c :: cs) = true := by
  have hne : c ≠ '-' := by
    rintro rfl
    exact absurd hc (by decide)
  rw [startsName, hc, Bool.true_or]
  exact fun _ _ h _ => hne h

theorem startsName_slash {c : Char} (hc : isLineBreak c = false) (cs : List Char) :
    startsName ('\\' :: c :: cs) = true ∧ startsName ('-' :: '\\' :: c :: cs) = true := by
  constructor
  · rw [startsName, escapes, hc]
    · rfl
    · exact fun _ _ h _ => absurd h (by decide)
  · rw [startsName, escapes, hc]
    rfl

/-- A piece that is written with a backslash begins with one, and no line breaks behind it. -/
theorem exists_written_slash {p : Piece} (hp : p.Sound) (hplain : ∀ c, p ≠ .plain c)
    (ps : List Piece) :
    ∃ c cs, written (p :: ps) = '\\' :: c :: cs ∧ isLineBreak c = false := by
  cases p with
  | plain c => exact absurd rfl (hplain c)
  | sign c => exact ⟨c, written ps, rfl, isLineBreak_of_isPrintable hp.1⟩
  | number n =>
    obtain ⟨d, ds, hds, hd⟩ := hexCapitals_eq_cons n
    exact ⟨d, ds ++ spaced (written ps), by rw [written, hds, List.cons_append],
      isLineBreak_of_isPrintable (isPrintable_of_isHexDigit hd)⟩

theorem isNameStart_of_isNameChar {c : Char} (hc : isNameChar c = true) (hhyphen : c ≠ '-')
    (hdigit : ¬c.isDigit = true) : isNameStart c = true := by
  rw [isNameChar, Bool.or_eq_true, Bool.or_eq_true, beq_iff_eq] at hc
  rcases hc with (hc | hc) | hc
  · exact hc
  · exact absurd hc hdigit
  · exact absurd hc hhyphen

/-- A guarded name is taken for one, unless it is empty or a lone hyphen. -/
theorem startsName_written {ps : List Piece} (hps : ∀ p ∈ ps, p.InName)
    (hempty : guardPieces ps ≠ []) (hhyphen : guardPieces ps ≠ [.plain '-']) (rest : List Char) :
    startsName (written (guardPieces ps) ++ rest) = true := by
  -- A backslash starts a name, also behind one hyphen; the guard leaves nothing else to look at
  -- but letters.
  have hslash : ∀ {p : Piece} (qs : List Piece), p.Sound → (∀ c, p ≠ .plain c) →
      startsName (written (p :: qs) ++ rest) = true ∧
        startsName ('-' :: (written (p :: qs) ++ rest)) = true := by
    intro p qs hp hplain
    obtain ⟨c, cs, hwritten, hc⟩ := exists_written_slash hp hplain qs
    rw [hwritten]
    exact startsName_slash hc (cs ++ rest)
  have hnames := inName_guardPieces hps
  revert hempty hhyphen hnames
  fun_cases guardPieces ps with
  | case1 c qs h =>
    intro _ _ hnames
    exact (hslash _ (hnames _ (.head _)).1 (fun c h => by cases h)).1
  | case2 c qs h =>
    intro _ _ hnames
    rw [Bool.or_eq_true, not_or, beq_iff_eq] at h
    have hstart :=
      isNameStart_of_isNameChar ((hnames (.plain c) (.tail _ (.head qs))).2 c rfl) h.1 h.2
    show startsName ('-' :: c :: (written qs ++ rest)) = true
    rw [startsName, hstart, Bool.true_or, Bool.true_or]
  | case3 c qs hnot h =>
    intro _ _ hnames
    exact (hslash _ (hnames _ (.head _)).1 (fun c h => by cases h)).1
  | case4 c qs hnot h =>
    intro _ hhyphen hnames
    by_cases hc : c = '-'
    · subst hc
      cases qs with
      | nil => exact absurd rfl hhyphen
      | cons q qs =>
        refine (hslash qs (hnames q (.tail _ (.head qs))).1 ?_).2
        rintro d rfl
        exact hnot d qs rfl rfl
    · exact startsName_of_isNameStart (isNameStart_of_isNameChar
        ((hnames _ (.head qs)).2 c rfl) hc h) _
  | case5 =>
    rename_i hnot
    intro hempty _ hnames
    cases ps with
    | nil => exact absurd rfl hempty
    | cons q qs =>
      refine (hslash qs (hnames q (.head qs)).1 ?_).1
      rintro d rfl
      exact hnot d qs rfl

/-! ## 3. Strings -/

theorem readString_slash {q c : Char} (hq : q ≠ '\\') (hc : isLineBreak c = false)
    (cs : List Char) :
    readString q ('\\' :: c :: cs) =
      (readString q (readEscape (c :: cs)).2).map fun (value, rest) =>
        ((readEscape (c :: cs)).1 :: value, rest) := by
  have hbreak : isLineBreak '\\' = false := by decide
  rw [readString.eq_def]
  simp only [beq_iff_eq, hq.symm, hbreak, hc, Bool.false_eq_true, if_false, if_true]

/-- **A string ends at its mark and nowhere before.** -/
theorem readString_written (quote : Quote) {ps : List Piece} (hps : ∀ p ∈ ps, p.InString quote)
    (rest : List Char) :
    readString quote.char (written ps ++ quote.char :: rest) = some (ps.map Piece.value, rest) := by
  have hquote : quote.char ≠ '\\' := by cases quote <;> decide
  have hblank : isBlank quote.char = false := by cases quote <;> decide
  induction ps with
  | nil =>
    show readString quote.char (quote.char :: rest) = some ([], rest)
    rw [readString.eq_def]
    simp only [beq_self_eq_true, if_true]
  | cons p ps ih =>
    have hp := hps p (.head ps)
    have htail : ∀ p ∈ ps, p.InString quote := fun p h => hps p (.tail _ h)
    cases p with
    | plain c =>
      have hne : c ≠ quote.char := fun h => hp.2 (by rw [h])
      rw [written, List.cons_append, readString.eq_def]
      simp only [beq_iff_eq, hne, isLineBreak_of_isPrintable hp.1.1, hp.1.2, Bool.false_eq_true,
        if_false]
      rw [ih htail]
      rfl
    | sign c =>
      rw [written, List.cons_append, List.cons_append,
        readString_slash hquote (isLineBreak_of_isPrintable hp.1.1),
        readEscape_of_not_isHexDigit hp.1.2, ih htail]
      rfl
    | number n =>
      -- The mark behind the last number is neither digit nor blank, so nothing is dropped in front
      -- of it.
      have hread : readEscape (hexCapitals n ++ (spaced (written ps) ++ quote.char :: rest)) =
          (charOf n, written ps ++ quote.char :: rest) := by
        cases ps with
        | nil =>
          show readEscape (hexCapitals n ++ (quote.char :: rest)) = (charOf n, quote.char :: rest)
          rw [readEscape_hexCapitals hp.1 (noDigitFirst_cons (isHexDigit_quote quote) rest),
            dropBlank, if_neg (by simp [hblank])]
        | cons q qs => exact readEscape_number hp.1 (htail q (.head qs)).1 qs _
      obtain ⟨d, ds, hds, hd⟩ := hexCapitals_eq_cons n
      rw [hds, List.cons_append] at hread
      rw [written, List.cons_append, List.append_assoc, hds, List.cons_append,
        readString_slash hquote (isLineBreak_of_isPrintable (isPrintable_of_isHexDigit hd)), hread,
        ih htail]
      rfl

end UniqueSelector.Selector
