import Mathlib
import UniqueSelector.Proofs.Pieces

/-!
# Escaped — what the escaper writes

A row of code units decodes to a text; the escaper writes that text, whatever the style, as a row of
pieces that mean its characters. Only U+0000 and the halves of broken pairs cannot be written, and
the replacement stands for them.
-/

namespace UniqueSelector

/-! ## 1. Reading code units -/

namespace CodeUnit

/-- A unit that stands by itself; half of a pair reads as the replacement. -/
def char (u : CodeUnit) : Char := if u.isHigh || u.isLow then replacement else Char.ofNat u.toNat

theorem isHigh_iff (u : CodeUnit) : u.isHigh = true ↔ 0xD800 ≤ u.toNat ∧ u.toNat ≤ 0xDBFF := by
  simp [isHigh, UInt16.le_iff_toNat_le]

theorem isLow_iff (u : CodeUnit) : u.isLow = true ↔ 0xDC00 ≤ u.toNat ∧ u.toNat ≤ 0xDFFF := by
  simp [isLow, UInt16.le_iff_toNat_le]

theorem toNat_lt (u : CodeUnit) : u.toNat < 0x10000 := UInt16.toNat_lt u

/-- Among numbers of 16 bits, the halves of pairs are those that name no character. -/
theorem isValidChar_iff (u : CodeUnit) : u.toNat.isValidChar ↔ (u.isHigh || u.isLow) = false := by
  have hlt := u.toNat_lt
  rw [Bool.or_eq_false_iff, ← Bool.not_eq_true, ← Bool.not_eq_true, isHigh_iff, isLow_iff,
    Nat.isValidChar]
  omega

theorem combine_bounds {u v : CodeUnit} (hu : u.isHigh = true) (hv : v.isLow = true) :
    0x10000 ≤ u.combine v ∧ u.combine v ≤ 0x10FFFF := by
  rw [isHigh_iff] at hu
  rw [isLow_iff] at hv
  rw [combine]
  omega

theorem isValidChar_combine {u v : CodeUnit} (hu : u.isHigh = true) (hv : v.isLow = true) :
    (u.combine v).isValidChar := by
  have := combine_bounds hu hv
  rw [Nat.isValidChar]
  omega

end CodeUnit

/-- The text of a row of units; a half without its other half reads as the replacement. -/
def decodeUnits : List CodeUnit → List Char
  | [] => []
  | [u] => [u.char]
  | u :: v :: rest =>
    if u.isHigh && v.isLow then Char.ofNat (u.combine v) :: decodeUnits rest
    else u.char :: decodeUnits (v :: rest)

/-- No selector can hold U+0000; the replacement stands for it. -/
def withoutNull (c : Char) : Char := if c = '\x00' then replacement else c

theorem withoutNull_of_ne {c : Char} (h : c ≠ '\x00') : withoutNull c = c := if_neg h

theorem charOf_eq (n : Nat) :
    charOf n = withoutNull (if n.isValidChar then Char.ofNat n else replacement) := by
  rw [charOf]
  by_cases hzero : n = 0
  · rw [if_pos hzero, hzero]
    rfl
  · rw [if_neg hzero]
    by_cases hvalid : n.isValidChar
    · rw [if_pos hvalid, withoutNull_of_ne]
      intro hnull
      apply hzero
      rw [← if_pos (c := n.isValidChar) (t := n) (e := 0) hvalid, ← Char.toNat_ofNat, hnull]
      rfl
    · rw [if_neg hvalid]
      rfl

theorem charOf_of_isValidChar {n : Nat} (h : n.isValidChar) :
    charOf n = withoutNull (Char.ofNat n) := by
  rw [charOf_eq, if_pos h]

theorem charOf_toNat (c : Char) : charOf c.toNat = withoutNull c := by
  rw [charOf_of_isValidChar (n := c.toNat) c.valid, Char.ofNat_toNat]

theorem charOf_unit (u : CodeUnit) : charOf u.toNat = withoutNull u.char := by
  rw [charOf_eq, CodeUnit.char]
  by_cases h : (u.isHigh || u.isLow) = true
  · rw [if_pos h, if_neg]
    rw [CodeUnit.isValidChar_iff, h]
    decide
  · rw [if_neg h, if_pos]
    rw [CodeUnit.isValidChar_iff]
    simpa using h

/-- What two units of a pair mean comes back from them, so a text is what its own units
decode to. -/
theorem decodeUnits_charUnits (c : Char) (us : List CodeUnit) :
    decodeUnits (charUnits c ++ us) = c :: decodeUnits us := by
  have hvalid : c.toNat < 0xd800 ∨ 0xdfff < c.toNat ∧ c.toNat < 0x110000 := c.valid
  rw [charUnits]
  split
  · next hsmall =>
    -- One unit: a character is no surrogate, so the unit is half of no pair.
    have hnat : (UInt16.ofNat c.toNat).toNat = c.toNat := by
      rw [UInt16.toNat_ofNat', Nat.mod_eq_of_lt hsmall]
    have hhigh : CodeUnit.isHigh (UInt16.ofNat c.toNat) = false := by
      rw [← Bool.not_eq_true, CodeUnit.isHigh_iff, hnat]
      omega
    have hlow : CodeUnit.isLow (UInt16.ofNat c.toNat) = false := by
      rw [← Bool.not_eq_true, CodeUnit.isLow_iff, hnat]
      omega
    have hchar : CodeUnit.char (UInt16.ofNat c.toNat) = c := by
      rw [CodeUnit.char, hhigh, hlow, hnat, Char.ofNat_toNat]
      rfl
    cases us with
    | nil => exact congrArg (· :: []) hchar
    | cons u us =>
      show decodeUnits (UInt16.ofNat c.toNat :: u :: us) = _
      rw [decodeUnits, if_neg (by simp [hhigh])]
      exact congrArg (· :: _) hchar
  · next hlarge =>
    -- Two units: dividing by 0x400 is undone by combining.
    have hhigh : (UInt16.ofNat (0xD800 + (c.toNat - 0x10000) / 0x400)).toNat =
        0xD800 + (c.toNat - 0x10000) / 0x400 := by
      rw [UInt16.toNat_ofNat', Nat.mod_eq_of_lt (by omega)]
    have hlow : (UInt16.ofNat (0xDC00 + (c.toNat - 0x10000) % 0x400)).toNat =
        0xDC00 + (c.toNat - 0x10000) % 0x400 := by
      rw [UInt16.toNat_ofNat', Nat.mod_eq_of_lt (by omega)]
    have hcombine : CodeUnit.combine (UInt16.ofNat (0xD800 + (c.toNat - 0x10000) / 0x400))
        (UInt16.ofNat (0xDC00 + (c.toNat - 0x10000) % 0x400)) = c.toNat := by
      rw [CodeUnit.combine, hhigh, hlow]
      omega
    show decodeUnits (_ :: _ :: us) = _
    rw [decodeUnits, if_pos, hcombine, Char.ofNat_toNat]
    rw [Bool.and_eq_true, CodeUnit.isHigh_iff, CodeUnit.isLow_iff, hhigh, hlow]
    omega

theorem decodeUnits_codeUnits (s : String) : decodeUnits (codeUnits s) = s.toList := by
  rw [codeUnits]
  induction s.toList with
  | nil => rfl
  | cons c cs ih => rw [List.flatMap_cons, decodeUnits_charUnits, ih]

namespace Selector

/-! ## 2. The pieces of the escaper -/

namespace EscapeStyle

/-- How a printable character is written. -/
def printablePiece (style : EscapeStyle) (c : Char) : Piece :=
  if style.everything then if isAnySign c then .sign c else .number c.toNat
  else if c == '\\' then .sign c
  else if style.identifier then if isNameSign c then .sign c else .plain c
  else if c == style.quote.char then .sign c else .plain c

/-- How a unit that stands by itself is written. -/
def piece (style : EscapeStyle) (u : CodeUnit) : Piece :=
  if 0x20 ≤ u && u ≤ 0x7e then style.printablePiece (Char.ofNat u.toNat) else .number u.toNat

/-- How a row of units is written. -/
def pieces (style : EscapeStyle) : List CodeUnit → List Piece
  | [] => []
  | [u] => [style.piece u]
  | u :: v :: rest =>
    if u.isHigh && v.isLow then .number (u.combine v) :: pieces style rest
    else style.piece u :: pieces style (v :: rest)

theorem text_printablePiece (style : EscapeStyle) (c : Char) :
    (style.printablePiece c).text = style.printable c := by
  rw [printablePiece, printable]
  repeat' split
  all_goals rfl

theorem text_piece (style : EscapeStyle) (u : CodeUnit) : (style.piece u).text = style.unit u := by
  rw [piece, unit]
  split
  · exact style.text_printablePiece _
  · rfl

theorem flatMap_text_pieces (style : EscapeStyle) (us : List CodeUnit) :
    (style.pieces us).flatMap Piece.text = style.units us := by
  fun_induction pieces style us with
  | case1 => rfl
  | case2 u => rw [List.flatMap_singleton, text_piece, units]
  | case3 u v rest h ih => rw [List.flatMap_cons, ih, units, if_pos h, Piece.text]
  | case4 u v rest h ih => rw [List.flatMap_cons, ih, units, if_neg h, text_piece]

theorem isPrintable_of_unit {u : CodeUnit} (h : (0x20 ≤ u && u ≤ 0x7e) = true) :
    isPrintable (Char.ofNat u.toNat) = true ∧ (Char.ofNat u.toNat).toNat = u.toNat := by
  simp only [Bool.and_eq_true, decide_eq_true_eq, UInt16.le_iff_toNat_le, UInt16.reduceToNat] at h
  have hnat : (Char.ofNat u.toNat).toNat = u.toNat := by
    rw [Char.toNat_ofNat, if_pos]
    rw [Nat.isValidChar]
    omega
  refine ⟨?_, hnat⟩
  rw [isPrintable, hnat, Bool.and_eq_true, decide_eq_true_eq, decide_eq_true_eq]
  exact h

/-! ### What the pieces mean -/

theorem value_printablePiece (style : EscapeStyle) {c : Char} (hc : isPrintable c = true) :
    (style.printablePiece c).value = c := by
  have hnull : c ≠ '\x00' := by
    rintro rfl
    exact absurd hc (by decide)
  rw [printablePiece]
  repeat' split
  all_goals first
    | rfl
    | rw [Piece.value, charOf_toNat, withoutNull_of_ne hnull]

theorem value_piece (style : EscapeStyle) (u : CodeUnit) :
    (style.piece u).value = withoutNull u.char := by
  rw [piece]
  split
  · next h =>
    obtain ⟨hprintable, hnat⟩ := isPrintable_of_unit h
    -- A printable unit is a character of its own, and so the one that it reads as.
    rw [style.value_printablePiece hprintable, ← charOf_unit, ← hnat, charOf_toNat, hnat,
      withoutNull_of_ne]
    intro hnull
    rw [hnull] at hprintable
    exact absurd hprintable (by decide)
  · exact charOf_unit u

theorem map_value_pieces (style : EscapeStyle) (us : List CodeUnit) :
    (style.pieces us).map Piece.value = (decodeUnits us).map withoutNull := by
  fun_induction pieces style us with
  | case1 => rfl
  | case2 u => rw [List.map_singleton, value_piece, decodeUnits, List.map_singleton]
  | case3 u v rest h ih =>
    rw [Bool.and_eq_true] at h
    rw [List.map_cons, ih, decodeUnits, if_pos (by simpa using h), List.map_cons, Piece.value,
      charOf_of_isValidChar (CodeUnit.isValidChar_combine h.1 h.2)]
  | case4 u v rest h ih => rw [List.map_cons, ih, decodeUnits, if_neg h, List.map_cons, value_piece]

/-! ### Where the pieces can stand -/

theorem sound_printablePiece (style : EscapeStyle) {c : Char} (hc : isPrintable c = true) :
    (style.printablePiece c).Sound := by
  -- No sign is a digit, so a backslash in front of it never opens a number.
  have hany : isAnySign c = true → isHexDigit c = false :=
    forall_printable (P := fun c => isAnySign c = true → isHexDigit c = false) (by decide) hc
  have hname : isNameSign c = true → isHexDigit c = false :=
    fun h => hany (by rw [isAnySign, h]; rfl)
  have hnumber : c.toNat < 16 ^ 6 := by
    rw [isPrintable, Bool.and_eq_true, decide_eq_true_eq, decide_eq_true_eq] at hc
    omega
  rw [printablePiece]
  split
  · split
    · next h => exact ⟨hc, hany h⟩
    · exact hnumber
  · split
    · next h =>
      rw [beq_iff_eq] at h
      exact ⟨hc, by rw [h]; decide⟩
    · next hslash =>
      have hne : c ≠ '\\' := by simpa using hslash
      split
      · split
        · next h => exact ⟨hc, hname h⟩
        · exact ⟨hc, hne⟩
      · split
        · next h =>
          rw [beq_iff_eq] at h
          exact ⟨hc, by rw [h]; exact isHexDigit_quote _⟩
        · exact ⟨hc, hne⟩

theorem sound_piece (style : EscapeStyle) (u : CodeUnit) : (style.piece u).Sound := by
  rw [piece]
  split
  · next h => exact style.sound_printablePiece (isPrintable_of_unit h).1
  · have := u.toNat_lt
    show u.toNat < 16 ^ 6
    omega

theorem inName_piece {style : EscapeStyle} (hstyle : style.identifier = true) (u : CodeUnit) :
    (style.piece u).InName := by
  refine ⟨style.sound_piece u, fun c hc => ?_⟩
  have hsound := style.sound_piece u
  rw [hc] at hsound
  have hplain : isNameSign c = false → c ≠ '\\' → isNameChar c = true :=
    forall_printable (P := fun c => isNameSign c = false → c ≠ '\\' → isNameChar c = true)
      (by decide) hsound.1
  rw [piece] at hc
  split at hc
  · rw [printablePiece, hstyle] at hc
    -- Only the branch that found no sign at all writes the character as it stands.
    split at hc
    · split at hc <;> cases hc
    · split at hc
      · cases hc
      · rw [if_pos rfl] at hc
        split at hc
        · cases hc
        · next hsign =>
          injection hc with hc
          rw [hc] at hsign
          exact hplain (by simpa using hsign) hsound.2
  · cases hc

theorem inString_piece {style : EscapeStyle} (hstyle : style.identifier = false) (u : CodeUnit) :
    (style.piece u).InString style.quote := by
  refine ⟨style.sound_piece u, fun hc => ?_⟩
  -- The mark itself is the one character that a string never writes as it stands.
  rw [piece] at hc
  split at hc
  · rw [printablePiece, hstyle] at hc
    split at hc
    · split at hc <;> cases hc
    · split at hc
      · cases hc
      · rw [if_neg (by decide)] at hc
        split at hc
        · cases hc
        · next hquote =>
          injection hc with hc
          exact hquote (by rw [hc]; exact beq_self_eq_true _)
  · cases hc

/-- A property of all pieces of single units and of all numbers is one of the whole row. -/
theorem forall_pieces {P : Piece → Prop} (style : EscapeStyle) (hpiece : ∀ u, P (style.piece u))
    (hpair : ∀ n, n ≤ 0x10FFFF → P (.number n)) (us : List CodeUnit) :
    ∀ p ∈ style.pieces us, P p := by
  fun_induction pieces style us with
  | case1 => intro p hp; cases hp
  | case2 u =>
    intro p hp
    rw [List.mem_singleton] at hp
    rw [hp]
    exact hpiece u
  | case3 u v rest h ih =>
    rw [Bool.and_eq_true] at h
    intro p hp
    rcases List.mem_cons.1 hp with rfl | hp
    · exact hpair _ (CodeUnit.combine_bounds h.1 h.2).2
    · exact ih p hp
  | case4 u v rest h ih =>
    intro p hp
    rcases List.mem_cons.1 hp with rfl | hp
    · exact hpiece u
    · exact ih p hp

theorem inName_pieces {style : EscapeStyle} (hstyle : style.identifier = true)
    (us : List CodeUnit) :
    ∀ p ∈ style.pieces us, p.InName :=
  style.forall_pieces (inName_piece hstyle)
    (fun n hn => ⟨show n < 16 ^ 6 by omega, fun c hc => by cases hc⟩) us

theorem inString_pieces {style : EscapeStyle} (hstyle : style.identifier = false)
    (us : List CodeUnit) :
    ∀ p ∈ style.pieces us, p.InString style.quote :=
  style.forall_pieces (inString_piece hstyle)
    (fun n hn => ⟨show n < 16 ^ 6 by omega, fun hc => by cases hc⟩) us

/-- When everything is escaped, no character stands as it is. -/
theorem piece_ne_plain {style : EscapeStyle} (hstyle : style.everything = true) (u : CodeUnit)
    (c : Char) :
    style.piece u ≠ .plain c := by
  rw [piece, printablePiece, hstyle, if_pos rfl]
  repeat' split
  all_goals exact fun h => by cases h

end EscapeStyle

/-! ## 3. The start of a name -/

/-- The pieces of a name, its start guarded. -/
def guardPieces : List Piece → List Piece
  | .plain '-' :: .plain c :: ps =>
    if c == '-' || c.isDigit then .sign '-' :: .plain c :: ps else .plain '-' :: .plain c :: ps
  | .plain c :: ps => if c.isDigit then .number c.toNat :: ps else .plain c :: ps
  | ps => ps

theorem forall_isDigit {P : Char → Prop} (h : ∀ n ∈ List.range' 0x30 10, P (Char.ofNat n))
    {c : Char} (hc : c.isDigit = true) : P c := by
  simp only [Char.isDigit, Bool.and_eq_true, decide_eq_true_eq, ge_iff_le,
    UInt32.le_iff_toNat_le] at hc
  rw [← Char.ofNat_toNat c]
  apply h
  rw [List.mem_range'_1]
  exact ⟨hc.1, Nat.lt_succ_of_le hc.2⟩

theorem flatMap_text_guardPieces (ps : List Piece) :
    (guardPieces ps).flatMap Piece.text = guardStart (ps.flatMap Piece.text) := by
  fun_cases guardPieces ps with
  | case1 c ps h =>
    show '\\' :: '-' :: c :: ps.flatMap Piece.text = guardStart ('-' :: c :: ps.flatMap Piece.text)
    rw [guardStart, if_pos h]
  | case2 c ps h =>
    show '-' :: c :: ps.flatMap Piece.text = guardStart ('-' :: c :: ps.flatMap Piece.text)
    rw [guardStart, if_neg h]
  | case3 c ps hnot h =>
    -- The guard is written out for digits: 3 and the digit itself are its number in base sixteen.
    have hdigit : byNumber c.toNat = ['\\', '3', c, ' '] :=
      forall_isDigit (P := fun c => byNumber c.toNat = ['\\', '3', c, ' ']) (by decide) h
    have hne : c ≠ '-' := by
      rintro rfl
      exact absurd h (by decide)
    show byNumber c.toNat ++ ps.flatMap Piece.text = guardStart (c :: ps.flatMap Piece.text)
    rw [hdigit, guardStart, if_pos h]
    · rfl
    · exact fun _ _ h _ => hne h
  | case4 c ps hnot h =>
    show c :: ps.flatMap Piece.text = guardStart (c :: ps.flatMap Piece.text)
    by_cases hhyphen : c = '-'
    · subst hhyphen
      -- The piece behind the hyphen is none that stands as it is, so it begins with a backslash.
      cases ps with
      | nil => rfl
      | cons p ps =>
        cases p with
        | plain d => exact absurd rfl (hnot d ps rfl)
        | sign d => rfl
        | number n => rfl
    · rw [guardStart, if_neg h]
      exact fun _ _ h _ => hhyphen h
  | case5 ps _ hnot =>
    cases ps with
    | nil => rfl
    | cons p ps =>
      cases p with
      | plain c => exact absurd rfl (hnot c ps)
      | sign c => rfl
      | number n => rfl

theorem map_value_guardPieces (ps : List Piece) :
    (guardPieces ps).map Piece.value = ps.map Piece.value := by
  fun_cases guardPieces ps with
  | case1 c ps h => rfl
  | case2 c ps h => rfl
  | case3 c ps hnot h =>
    have hnull : c ≠ '\x00' := by
      rintro rfl
      exact absurd h (by decide)
    show charOf c.toNat :: ps.map Piece.value = c :: ps.map Piece.value
    rw [charOf_toNat, withoutNull_of_ne hnull]
  | case4 c ps hnot h => rfl
  | case5 ps _ hnot => rfl

theorem inName_guardPieces {ps : List Piece} (hps : ∀ p ∈ ps, p.InName) :
    ∀ p ∈ guardPieces ps, p.InName := by
  fun_cases guardPieces ps with
  | case1 c ps h =>
    intro p hp
    rcases List.mem_cons.1 hp with rfl | hp
    · exact ⟨⟨by decide, by decide⟩, fun c hc => by cases hc⟩
    · exact hps p (.tail _ hp)
  | case2 c ps h => exact hps
  | case3 c ps hnot h =>
    intro p hp
    rcases List.mem_cons.1 hp with rfl | hp
    · have hsmall : c.toNat < 16 ^ 6 :=
        forall_isDigit (P := fun c => c.toNat < 16 ^ 6) (by decide) h
      exact ⟨hsmall, fun c hc => by cases hc⟩
    · exact hps p (.tail _ hp)
  | case4 c ps hnot h => exact hps
  | case5 ps _ hnot => exact hps

/-! ## 4. Whole texts -/

namespace EscapeStyle

/-- All pieces of an escaped text. -/
def escaped (style : EscapeStyle) (us : List CodeUnit) : List Piece :=
  if style.identifier then guardPieces (style.pieces us) else style.pieces us

theorem map_value_escaped (style : EscapeStyle) (us : List CodeUnit) :
    (style.escaped us).map Piece.value = (decodeUnits us).map withoutNull := by
  rw [escaped]
  split
  · rw [map_value_guardPieces, map_value_pieces]
  · exact style.map_value_pieces us

theorem inName_escaped {style : EscapeStyle} (hstyle : style.identifier = true)
    (us : List CodeUnit) :
    ∀ p ∈ style.escaped us, p.InName := by
  rw [escaped, if_pos hstyle]
  exact inName_guardPieces (inName_pieces hstyle us)

theorem inString_escaped (style : EscapeStyle) (hstyle : style.identifier = false)
    (us : List CodeUnit) :
    ∀ p ∈ style.escaped us, p.InString style.quote := by
  rw [escaped, if_neg (by simp [hstyle])]
  exact inString_pieces hstyle us

theorem sound_escaped (style : EscapeStyle) (us : List CodeUnit) :
    ∀ p ∈ style.escaped us, p.Sound := by
  cases h : style.identifier with
  | false => exact fun p hp => (inString_escaped _ h us p hp).1
  | true => exact fun p hp => (inName_escaped h us p hp).1

end EscapeStyle

/-- **The escaper writes the text that it was given.** -/
theorem escapeUnits_eq (style : EscapeStyle) (us : List CodeUnit) :
    escapeUnits style us = String.ofList
      (if !style.identifier && style.wrap then
        style.quote.char :: written (style.escaped us) ++ [style.quote.char]
      else written (style.escaped us)) := by
  have hbody : dropBlanks .plain
      (if style.identifier then guardStart (style.units us) else style.units us) =
        written (style.escaped us) := by
    rw [← dropBlanks_pieces (style.escaped us) (style.sound_escaped us) .plain trivial,
      EscapeStyle.escaped]
    split
    · rw [flatMap_text_guardPieces, EscapeStyle.flatMap_text_pieces]
    · rw [EscapeStyle.flatMap_text_pieces]
  rw [escapeUnits, hbody]

/-- The pieces of a text as a name. -/
def namePieces (name : String) : List Piece := EscapeStyle.name.escaped (codeUnits name)

/-- The pieces of a text between quotation marks. -/
def stringPieces (quote : Quote) (text : String) : List Piece :=
  (EscapeStyle.string quote).escaped (codeUnits text)

theorem inName_namePieces (name : String) : ∀ p ∈ namePieces name, p.InName :=
  EscapeStyle.inName_escaped rfl (codeUnits name)

theorem inString_stringPieces (quote : Quote) (text : String) :
    ∀ p ∈ stringPieces quote text, p.InString quote :=
  EscapeStyle.inString_escaped (.string quote) rfl (codeUnits text)

/-- A text as it can be read back from a selector. -/
def readable (text : String) : String := String.ofList (text.toList.map withoutNull)

theorem toList_escapeName (name : String) :
    (escapeName name).toList = written (namePieces name) := by
  rw [escapeName, escape, escapeUnits_eq, String.toList_ofList]
  rfl

theorem toList_escape_string (quote : Quote) (text : String) :
    (escape (.string quote) text).toList = written (stringPieces quote text) := by
  rw [escape, escapeUnits_eq, String.toList_ofList]
  rfl

theorem map_value_namePieces (name : String) :
    String.ofList ((namePieces name).map Piece.value) = readable name := by
  rw [namePieces, EscapeStyle.map_value_escaped, decodeUnits_codeUnits, readable]

theorem map_value_stringPieces (quote : Quote) (text : String) :
    String.ofList ((stringPieces quote text).map Piece.value) = readable text := by
  rw [stringPieces, EscapeStyle.map_value_escaped, decodeUnits_codeUnits, readable]

/-- Without U+0000 nothing is lost. -/
theorem readable_of_notMem {text : String} (h : '\x00' ∉ text.toList) : readable text = text := by
  have hmap : text.toList.map withoutNull = text.toList.map id :=
    List.map_congr_left fun c hc => withoutNull_of_ne fun hnull => h (hnull ▸ hc)
  rw [readable, hmap, List.map_id, String.ofList_toList]

end Selector

end UniqueSelector
