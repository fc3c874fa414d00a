import UniqueSelector.Proofs.Escaped

/-!
# Sparing — the escaper changes only what it must

A text stays as it is if and only if all its pieces do, since any other piece is longer than the
character that it writes. So names of letters, digits, hyphens and underscores stay, as long as
their start is none of a number. And of the blanks behind numbers only those are left without which
the next character would be taken for a part of the number.
-/

namespace UniqueSelector.Selector

/-! ## 1. Names that stay -/

theorem length_le_length_spaced (cs : List Char) : cs.length ≤ (spaced cs).length := by
  rw [spaced]
  split
  · exact Nat.le_succ _
  · exact Nat.le_refl _

theorem length_le_length_written (ps : List Piece) : ps.length ≤ (written ps).length := by
  induction ps with
  | nil => exact Nat.le_refl 0
  | cons p ps ih =>
    cases p with
    | plain c => exact Nat.succ_le_succ ih
    | sign c => exact Nat.succ_le_succ (Nat.le_succ_of_le ih)
    | number n =>
      have := length_le_length_spaced (written ps)
      rw [written, List.length_cons, List.length_cons, List.length_append]
      omega

/-- Pieces that take no more room than their characters stand as they are. -/
theorem exists_eq_map_plain {ps : List Piece} (h : (written ps).length ≤ ps.length) :
    ∃ cs : List Char, ps = cs.map .plain := by
  induction ps with
  | nil => exact ⟨[], rfl⟩
  | cons p ps ih =>
    have hrest := length_le_length_written ps
    cases p with
    | plain c =>
      obtain ⟨cs, rfl⟩ := ih (Nat.le_of_succ_le_succ h)
      exact ⟨c :: cs, rfl⟩
    | sign c =>
      rw [written, List.length_cons, List.length_cons, List.length_cons] at h
      omega
    | number n =>
      have hspaced := length_le_length_spaced (written ps)
      have hdigits := List.length_pos_iff.2 (hexCapitals_ne_nil n)
      rw [written, List.length_cons, List.length_cons, List.length_append] at h
      omega

theorem written_map_plain (cs : List Char) : written (cs.map .plain) = cs := by
  induction cs with
  | nil => rfl
  | cons c cs ih => rw [List.map_cons, written, ih]

theorem length_namePieces (name : String) : (namePieces name).length = name.toList.length := by
  have hvalues := EscapeStyle.name.map_value_escaped (codeUnits name)
  rw [decodeUnits_codeUnits] at hvalues
  have hlength := congrArg List.length hvalues
  rwa [List.length_map, List.length_map] at hlength

/-- A name stays if and only if each of its characters does. -/
theorem escapeName_eq_self_iff_pieces (name : String) :
    escapeName name = name ↔ namePieces name = name.toList.map .plain := by
  rw [← String.toList_inj, toList_escapeName]
  constructor
  · intro h
    have hroom : (written (namePieces name)).length ≤ (namePieces name).length := by
      rw [h, length_namePieces]
    obtain ⟨cs, hcs⟩ := exists_eq_map_plain hroom
    rw [hcs, written_map_plain] at h
    rw [hcs, h]
  · intro h
    rw [h, written_map_plain]

/-! ### The characters of a name -/

/-- ASCII letters, digits, the hyphen and the underscore. -/
def IsWordChar (c : Char) : Prop := c.isAlphanum = true ∨ c = '-' ∨ c = '_'

instance (c : Char) : Decidable (IsWordChar c) := inferInstanceAs (Decidable (_ ∨ _))

/-- An optional hyphen, a letter of ASCII or an underscore, and more characters of words. -/
def PlainName (cs : List Char) : Prop :=
  ∃ hyphen first rest, cs = hyphen ++ first :: rest ∧ (hyphen = [] ∨ hyphen = ['-']) ∧
    (first.isAlpha = true ∨ first = '_') ∧ ∀ c ∈ rest, IsWordChar c

theorem isPrintable_of_isWordChar {c : Char} (hc : IsWordChar c) : isPrintable c = true := by
  rcases hc with hc | rfl | rfl
  · simp only [Char.isAlphanum, Char.isAlpha, Char.isUpper, Char.isLower, Char.isDigit,
      Bool.or_eq_true, Bool.and_eq_true, decide_eq_true_eq, ge_iff_le, UInt32.le_iff_toNat_le] at hc
    simp only [UInt32.reduceToNat, Char.reduceVal] at hc
    simp only [isPrintable, Char.toNat, Bool.and_eq_true, decide_eq_true_eq]
    omega
  · decide
  · decide

theorem isWordChar_of_isNameChar {c : Char} (hprintable : isPrintable c = true)
    (hc : isNameChar c = true) :
    IsWordChar c :=
  forall_printable (P := fun c => isNameChar c = true → IsWordChar c) (by decide) hprintable hc

/-- A character of a word that is neither a digit nor a hyphen can begin a name. -/
theorem isStart_of_isWordChar {c : Char} (hc : IsWordChar c) (hdigit : c.isDigit = false)
    (hhyphen : c ≠ '-') :
    c.isAlpha = true ∨ c = '_' := by
  rcases hc with hc | hc | hc
  · rw [Char.isAlphanum, hdigit, Bool.or_false] at hc
    exact .inl hc
  · exact absurd hc hhyphen
  · exact .inr hc

theorem isWordChar_of_isStart {c : Char} (hc : c.isAlpha = true ∨ c = '_') :
    IsWordChar c ∧ c.isDigit = false ∧ c ≠ '-' := by
  have hword : IsWordChar c := hc.imp (fun h => by rw [Char.isAlphanum, h]; rfl) .inr
  exact ⟨hword,
    forall_printable (P := fun c => c.isAlpha = true ∨ c = '_' → c.isDigit = false ∧ c ≠ '-')
      (by decide) (isPrintable_of_isWordChar hword) hc⟩

theorem pieces_charUnits {c : Char} (hc : IsWordChar c) (us : List CodeUnit) :
    EscapeStyle.name.pieces (charUnits c ++ us) = .plain c :: EscapeStyle.name.pieces us := by
  have hprintable := isPrintable_of_isWordChar hc
  have hunit : charUnits c = [UInt16.ofNat c.toNat] ∧
      CodeUnit.isHigh (UInt16.ofNat c.toNat) = false :=
    forall_printable (P := fun c => charUnits c = [UInt16.ofNat c.toNat] ∧
      CodeUnit.isHigh (UInt16.ofNat c.toNat) = false) (by decide) hprintable
  have hpiece : EscapeStyle.name.piece (UInt16.ofNat c.toNat) = .plain c :=
    forall_printable (P := fun c => IsWordChar c →
      EscapeStyle.name.piece (UInt16.ofNat c.toNat) = .plain c) (by decide) hprintable hc
  rw [hunit.1, List.singleton_append]
  cases us with
  | nil => exact congrArg (· :: []) hpiece
  | cons u us => rw [EscapeStyle.pieces, hunit.2, Bool.false_and, if_neg Bool.false_ne_true, hpiece]

theorem pieces_codeUnits {name : String} (h : ∀ c ∈ name.toList, IsWordChar c) :
    EscapeStyle.name.pieces (codeUnits name) = name.toList.map .plain := by
  rw [codeUnits]
  revert h
  induction name.toList with
  | nil => exact fun _ => rfl
  | cons c cs ih =>
    intro h
    rw [List.forall_mem_cons] at h
    rw [List.flatMap_cons, pieces_charUnits h.1, ih h.2, List.map_cons]

/-- Where the guard leaves a name as it is, the name is no more than a hyphen, or it begins, behind
a hyphen or not, with neither a digit nor a hyphen. -/
theorem exists_start_of_guardPieces {ps : List Piece} {cs : List Char}
    (h : guardPieces ps = cs.map .plain) :
    cs = [] ∨ cs = ['-'] ∨ ∃ hyphen first rest, cs = hyphen ++ first :: rest ∧
      (hyphen = [] ∨ hyphen = ['-']) ∧ first.isDigit = false ∧ first ≠ '-' := by
  cases cs with
  | nil => exact .inl rfl
  | cons d cs =>
    refine .inr ?_
    revert h
    fun_cases guardPieces ps with
    | case1 c ps hc => exact fun h => by cases h
    | case2 c ps hc =>
      intro h
      obtain ⟨rfl, h⟩ : '-' = d ∧ .plain c :: ps = cs.map .plain := by simpa using h
      obtain ⟨e, cs, rfl⟩ : ∃ e rest, cs = e :: rest :=
        List.exists_cons_of_ne_nil (by rintro rfl; cases h)
      obtain ⟨rfl, -⟩ : c = e ∧ ps = cs.map .plain := by simpa using h
      simp only [Bool.or_eq_true, beq_iff_eq, not_or, Bool.not_eq_true] at hc
      exact .inr ⟨['-'], c, cs, rfl, .inr rfl, hc.2, hc.1⟩
    | case3 c ps hnot hc => exact fun h => by cases h
    | case4 c ps hnot hc =>
      intro h
      obtain ⟨rfl, hps⟩ : c = d ∧ ps = cs.map .plain := by simpa using h
      by_cases hhyphen : c = '-'
      · -- Behind a hyphen there is no second character that stands as it is.
        cases cs with
        | nil => exact .inl (by rw [hhyphen])
        | cons e cs => exact (hnot e _ hps hhyphen).elim
      · exact .inr ⟨[], c, cs, rfl, .inl rfl, by simpa using hc, hhyphen⟩
    | case5 ps hnot hnot' => exact fun h => absurd h (hnot' d _)

theorem guardPieces_map_plain {first : Char} (hdigit : first.isDigit = false)
    (hhyphen : first ≠ '-') (rest : List Char) :
    guardPieces ((first :: rest).map .plain) = (first :: rest).map .plain ∧
      guardPieces (('-' :: first :: rest).map .plain) = ('-' :: first :: rest).map .plain := by
  constructor
  · rw [List.map_cons, guardPieces, hdigit, if_neg Bool.false_ne_true]
    exact fun _ _ _ h => hhyphen h
  · rw [List.map_cons, List.map_cons, guardPieces, hdigit, Bool.or_false,
      if_neg (by simpa using hhyphen)]

/-- **A name stays if and only if it is plain**, or no name at all. -/
theorem escapeName_eq_self_iff {name : String} :
    escapeName name = name ↔ name = "" ∨ name = "-" ∨ PlainName name.toList := by
  rw [escapeName_eq_self_iff_pieces]
  constructor
  · intro h
    have hword : ∀ c ∈ name.toList, IsWordChar c := by
      intro c hc
      have hname := inName_namePieces name (.plain c) (h ▸ List.mem_map_of_mem hc)
      exact isWordChar_of_isNameChar hname.1.1 (hname.2 c rfl)
    rcases exists_start_of_guardPieces h
      with hempty | hlone | ⟨hyphen, first, rest, htext, hhyphen, hdigit, hne⟩
    · exact .inl (String.toList_inj.1 hempty)
    · exact .inr (.inl (String.toList_inj.1 hlone))
    · rw [htext] at hword
      have hfirst := hword first (List.mem_append_right _ (.head rest))
      exact .inr (.inr ⟨hyphen, first, rest, htext, hhyphen,
        isStart_of_isWordChar hfirst hdigit hne,
        fun c hc => hword c (List.mem_append_right _ (.tail _ hc))⟩)
  · rintro (rfl | rfl | ⟨hyphen, first, rest, htext, hhyphen, hfirst, hrest⟩)
    · decide
    · decide
    · obtain ⟨hword, hdigit, hne⟩ := isWordChar_of_isStart hfirst
      have hguard := guardPieces_map_plain hdigit hne rest
      have hname : ∀ c ∈ name.toList, IsWordChar c := by
        rw [htext]
        intro c hc
        rcases List.mem_append.1 hc with hc | hc
        · rcases hhyphen with rfl | rfl
          · cases hc
          · exact .inr (.inl (List.mem_singleton.1 hc))
        · rcases List.mem_cons.1 hc with rfl | hc
          · exact hword
          · exact hrest c hc
      show guardPieces (EscapeStyle.name.pieces (codeUnits name)) = _
      rw [pieces_codeUnits hname, htext]
      rcases hhyphen with rfl | rfl
      · exact hguard.1
      · exact hguard.2

/-! ## 2. Blanks that stay -/

namespace BlankState

/-- The state behind a character that is kept. -/
def advance : BlankState → Char → BlankState
  | .plain, c => .restart c
  | .slashes odd, c =>
    if c == '\\' then .slashes !odd else if isHexCapital c then .number odd 1 else .plain
  | .number odd count, c =>
    if isHexCapital c && count < 6 then .number odd (count + 1) else .restart c

theorem advance_number {c : Char} (hc : isHexCapital c = false) (odd : Bool) (count : Nat) :
    (number odd count).advance c = restart c := by
  rw [advance, hc, Bool.false_and, if_neg Bool.false_ne_true]

/-- The blank `c` in front of `cs` ends a number and separates nothing. -/
def Idles (st : BlankState) (c : Char) (cs : List Char) : Prop :=
  (∃ count, st = .number true count) ∧ c = ' ' ∧ needsBlank cs = false

end BlankState

theorem dropBlanks_of_idles {st : BlankState} {c : Char} {cs : List Char} (h : st.Idles c cs) :
    dropBlanks st (c :: cs) = dropBlanks .plain cs := by
  obtain ⟨⟨count, rfl⟩, rfl, hneeds⟩ := h
  have hblank : isHexCapital ' ' = false := by decide
  rw [dropBlanks, hblank, Bool.false_and, if_neg Bool.false_ne_true, hneeds]
  rfl

theorem dropBlanks_of_not_idles {st : BlankState} {c : Char} {cs : List Char} (h : ¬st.Idles c cs) :
    dropBlanks st (c :: cs) = c :: dropBlanks (st.advance c) cs := by
  cases st with
  | plain => rfl
  | slashes odd =>
    rw [dropBlanks, BlankState.advance]
    repeat' split
    all_goals rfl
  | number odd count =>
    rw [dropBlanks, BlankState.advance]
    split
    · rfl
    · split
      · next hdrop =>
        simp only [Bool.and_eq_true, beq_iff_eq, Bool.not_eq_true'] at hdrop
        exact absurd ⟨⟨count, by rw [hdrop.1.2]⟩, hdrop.1.1, hdrop.2⟩ h
      · rfl

theorem needsBlank_dropBlanks_plain (cs : List Char) :
    needsBlank (dropBlanks .plain cs) = needsBlank cs := by
  cases cs <;> rfl

/-- What can follow a number without its blank leaves no state of a number behind. -/
theorem advance_number_of_not_needsBlank {d : Char} {cs : List Char}
    (h : needsBlank (d :: cs) = false) (count : Nat) :
    (BlankState.number true count).advance d = BlankState.plain.advance d := by
  rw [needsBlank, Bool.or_eq_false_iff, isHexDigit, Bool.or_eq_false_iff, Bool.or_eq_false_iff] at h
  have hcapital : isHexCapital d = false := by rw [isHexCapital, h.1.1.1, h.1.2]; rfl
  rw [BlankState.advance_number hcapital, BlankState.advance]

/-- **A blank that is kept behind a number is needed there.** -/
theorem needsBlank_of_dropBlanks {st : BlankState} {cs front after : List Char} {count : Nat}
    (hkept : dropBlanks st cs = front ++ ' ' :: after)
    (hfront : front.foldl BlankState.advance st = .number true count) :
    needsBlank after = true := by
  -- The state on the text and the state on what is kept of it part only behind a dropped blank, for
  -- one character.
  induction cs generalizing st front with
  | nil =>
    rw [dropBlanks] at hkept
    exact absurd hkept.symm (List.append_ne_nil_of_right_ne_nil front (List.cons_ne_nil ' ' after))
  | cons c cs ih =>
    by_cases hidles : st.Idles c cs
    · rw [dropBlanks_of_idles hidles] at hkept
      obtain ⟨⟨n, rfl⟩, rfl, hneeds⟩ := hidles
      have hhead := needsBlank_dropBlanks_plain cs
      rw [hkept, hneeds] at hhead
      cases front with
      | nil => exact absurd hhead (by simp [needsBlank])
      | cons d front =>
        rw [List.foldl_cons, advance_number_of_not_needsBlank hhead] at hfront
        exact ih hkept hfront
    · rw [dropBlanks_of_not_idles hidles] at hkept
      cases front with
      | nil =>
        obtain ⟨rfl, rfl⟩ := List.cons.inj hkept
        rw [List.foldl_nil] at hfront
        subst hfront
        have hplain : (BlankState.number true count).advance ' ' = .plain :=
          BlankState.advance_number (by decide) true count
        rw [hplain, needsBlank_dropBlanks_plain, ← Bool.not_eq_false]
        exact fun hneeds => hidles ⟨⟨count, rfl⟩, rfl, hneeds⟩
      | cons d front =>
        obtain ⟨rfl, hrest⟩ := List.cons.inj hkept
        exact ih hrest hfront

/-! ### Where a number ends -/

/-- The text breaks off behind the number of a character: an odd row of backslashes, and one to
six digits. -/
structure EndsNumber (front before slashes digits : List Char) : Prop where
  text : front = before ++ (slashes ++ digits)
  whole : before.getLast? ≠ some '\\'
  odd : slashes.length % 2 = 1
  nonempty : 1 ≤ digits.length
  few : digits.length ≤ 6
  isSlash : ∀ c ∈ slashes, c = '\\'
  isDigit : ∀ c ∈ digits, isHexCapital c = true

namespace BlankState

theorem advance_ne_slashes (st : BlankState) {c : Char} (hc : c ≠ '\\') (odd : Bool) :
    st.advance c ≠ .slashes odd := by
  have hrestart : restart c = .plain := if_neg (by simpa using hc)
  cases st with
  | plain =>
    rw [advance, hrestart]
    exact fun h => by cases h
  | slashes odd' =>
    rw [advance, if_neg (by simpa using hc)]
    split <;> exact fun h => by cases h
  | number odd' count =>
    rw [advance, hrestart]
    split <;> exact fun h => by cases h

theorem foldl_advance_ne_slashes {cs : List Char} (h : cs.getLast? ≠ some '\\') (odd : Bool) :
    cs.foldl advance .plain ≠ .slashes odd := by
  rcases List.eq_nil_or_concat cs with rfl | ⟨cs, c, rfl⟩
  · exact fun h => by cases h
  · rw [List.concat_eq_append, List.getLast?_append, List.getLast?_singleton] at h
    rw [List.concat_eq_append, List.foldl_append]
    exact advance_ne_slashes _ (fun hc => h (by rw [hc]; rfl)) odd

theorem advance_slash {st : BlankState} (h : ∀ odd, st ≠ .slashes odd) :
    st.advance '\\' = .slashes true := by
  cases st with
  | plain => rfl
  | slashes odd => exact absurd rfl (h odd)
  | number odd count => exact advance_number (by decide) odd count

theorem foldl_advance_slashes {cs : List Char} (h : ∀ c ∈ cs, c = '\\') (odd : Bool) :
    cs.foldl advance (.slashes odd) = .slashes (odd ^^ decide (cs.length % 2 = 1)) := by
  induction cs generalizing odd with
  | nil => simp
  | cons c cs ih =>
    rw [List.forall_mem_cons] at h
    have hflip : decide ((c :: cs).length % 2 = 1) = !decide (cs.length % 2 = 1) := by
      rw [List.length_cons, ← decide_not, decide_eq_decide]
      omega
    rw [List.foldl_cons, h.1, advance, if_pos (beq_self_eq_true _), ih h.2, ← h.1, hflip]
    simp

theorem foldl_advance_digits {cs : List Char} (h : ∀ c ∈ cs, isHexCapital c = true) {count : Nat}
    (hfew : count + cs.length ≤ 6) :
    cs.foldl advance (.number true count) = .number true (count + cs.length) := by
  induction cs generalizing count with
  | nil => rfl
  | cons c cs ih =>
    rw [List.forall_mem_cons] at h
    rw [List.length_cons] at hfew
    rw [List.foldl_cons, advance, h.1, Bool.true_and, if_pos (by simpa using by omega),
      ih h.2 (by omega), List.length_cons, Nat.add_right_comm, Nat.add_assoc]

end BlankState

/-- Behind a number the state knows it. -/
theorem EndsNumber.exists_state {front before slashes digits : List Char}
    (h : EndsNumber front before slashes digits) :
    ∃ count, front.foldl BlankState.advance .plain = .number true count := by
  obtain ⟨s, slashes, rfl⟩ :=
    List.exists_cons_of_ne_nil (l := slashes) (by rintro rfl; exact absurd h.odd (by decide))
  obtain ⟨d, digits, rfl⟩ :=
    List.exists_cons_of_ne_nil (l := digits) (by rintro rfl; exact absurd h.nonempty (by decide))
  have hslashes := List.forall_mem_cons.1 h.isSlash
  have hdigits := List.forall_mem_cons.1 h.isDigit
  have hodd : (slashes.length + 1) % 2 = 1 := h.odd
  have hfew : digits.length + 1 ≤ 6 := h.few
  have hslash : d ≠ '\\' := by
    rintro rfl
    exact absurd hdigits.1 (by decide)
  refine ⟨1 + digits.length, ?_⟩
  have heven : decide (slashes.length % 2 = 1) = false := by simpa using by omega
  have hrow : ((s :: slashes).foldl BlankState.advance (before.foldl BlankState.advance .plain)) =
      .slashes true := by
    rw [List.foldl_cons, hslashes.1,
      BlankState.advance_slash (BlankState.foldl_advance_ne_slashes h.whole),
      BlankState.foldl_advance_slashes hslashes.2, heven, Bool.xor_false]
  rw [h.text, List.foldl_append, List.foldl_append, hrow, List.foldl_cons, BlankState.advance,
    if_neg (by simpa using hslash), if_pos hdigits.1,
    BlankState.foldl_advance_digits hdigits.2 (by omega)]

/-! ## 3. Whole texts -/

/-- Every blank right behind a number stands in front of a digit, in capitals or not, or in front of
another blank. -/
def Terse (cs : List Char) : Prop :=
  ∀ front before slashes digits after, cs = front ++ ' ' :: after →
    EndsNumber front before slashes digits →
    ∃ c rest, after = c :: rest ∧ (isHexDigit c = true ∨ c = ' ')

theorem exists_cons_of_needsBlank {cs : List Char} (h : needsBlank cs = true) :
    ∃ c rest, cs = c :: rest ∧ (isHexDigit c = true ∨ c = ' ') := by
  cases cs with
  | nil => cases h
  | cons c cs =>
    rw [needsBlank, Bool.or_eq_true, beq_iff_eq] at h
    exact ⟨c, cs, rfl, h⟩

theorem terse_dropBlanks (cs : List Char) : Terse (dropBlanks .plain cs) := by
  intro front before slashes digits after hkept hends
  obtain ⟨count, hstate⟩ := hends.exists_state
  exact exists_cons_of_needsBlank (needsBlank_of_dropBlanks hkept hstate)

/-- A character in front that is no backslash is no part of a number. -/
theorem EndsNumber.exists_of_cons {c : Char} (hc : c ≠ '\\')
    {front before slashes digits : List Char} (h : EndsNumber (c :: front) before slashes digits) :
    ∃ before, EndsNumber front before slashes digits := by
  have htext := h.text
  cases before with
  | nil =>
    -- The row of backslashes would begin with the character.
    cases slashes with
    | nil => exact absurd h.odd (by decide)
    | cons s slashes =>
      exact absurd ((List.cons.inj htext).1.trans (h.isSlash s (.head slashes))) hc
  | cons d before =>
    refine ⟨before, { h with text := (List.cons.inj htext).2, whole := fun hlast => h.whole ?_ }⟩
    rw [List.getLast?_cons, hlast]
    rfl

/-- Quotation marks around a text are no part of a number. -/
theorem Terse.quoted {cs : List Char} (h : Terse cs) (quote : Quote) :
    Terse (quote.char :: cs ++ [quote.char]) := by
  have hquote : quote.char ≠ ' ' ∧ quote.char ≠ '\\' := by cases quote <;> decide
  intro front before slashes digits after htext hends
  cases front with
  | nil => exact absurd (List.cons.inj htext).1 hquote.1
  | cons q front =>
    obtain ⟨rfl, hinside⟩ : quote.char = q ∧ cs ++ [quote.char] = front ++ ' ' :: after :=
      List.cons.inj htext
    obtain ⟨before, hends⟩ := hends.exists_of_cons hquote.2
    rcases List.eq_nil_or_concat after with rfl | ⟨after, z, rfl⟩
    · exact absurd (List.cons.inj (List.append_inj' hinside rfl).2).1 hquote.1
    · rw [List.concat_eq_append, ← List.cons_append, ← List.append_assoc] at hinside
      obtain ⟨c, rest, rfl, hneeded⟩ :=
        h front before slashes digits after (List.append_inj' hinside rfl).1 hends
      exact ⟨c, rest ++ [z], by rw [List.concat_eq_append, List.cons_append], hneeded⟩

/-- Whatever the style, the escaper leaves no blank behind a number that separates nothing. -/
theorem terse_escapeUnits (style : EscapeStyle) (us : List CodeUnit) :
    Terse (escapeUnits style us).toList := by
  rw [escapeUnits, String.toList_ofList]
  split
  · exact (terse_dropBlanks _).quoted style.quote
  · exact terse_dropBlanks _

/-- **The escaper changes only what it must**: a name stays if and only if it is plain or no name at
all, and in any style a blank right behind a number stands in front of a digit or another blank. -/
theorem escape_terse (style : EscapeStyle) (text : String) :
    (escapeName text = text ↔ text = "" ∨ text = "-" ∨ PlainName text.toList) ∧
      Terse (escape style text).toList :=
  ⟨escapeName_eq_self_iff, terse_escapeUnits style (codeUnits text)⟩

/-- A blank that is kept: the letter behind it is a digit of base sixteen. -/
theorem escape_terse_accent :
    (escape .name "éa").toList = ['\\', 'E', '9'] ++ ' ' :: ['a'] ∧
      EndsNumber ['\\', 'E', '9'] [] ['\\'] ['E', '9'] ∧
      ∃ c rest, ['a'] = c :: rest ∧ (isHexDigit c = true ∨ c = ' ') := by
  have htext : (escape .name "éa").toList = ['\\', 'E', '9'] ++ ' ' :: ['a'] := by
    have hwritten : escape .name "éa" = "\\E9 a" := by decide +kernel
    rw [hwritten]
    decide
  have hends : EndsNumber ['\\', 'E', '9'] [] ['\\'] ['E', '9'] :=
    { text := rfl, whole := by decide, odd := rfl, nonempty := by decide, few := by decide,
      isSlash := List.forall_mem_singleton.2 rfl,
      isDigit := List.forall_mem_cons.2 ⟨by decide, List.forall_mem_singleton.2 (by decide)⟩ }
  exact ⟨htext, hends, (escape_terse .name "éa").2 _ _ _ _ _ htext hends⟩

end UniqueSelector.Selector
