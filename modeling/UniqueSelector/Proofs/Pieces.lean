import UniqueSelector.Proofs.Numerals
import UniqueSelector.Selector.Name

/-!
# Pieces — an escaped text as a row of pieces

The escaper writes a character as it stands, behind a backslash, or by its number. What it puts out
is a row of such pieces, and a blank stands behind a number only where the next piece could be taken
for one more digit or for the blank itself.
-/

namespace UniqueSelector.Selector

/-! ## 1. Pieces -/

/-- One character as it is written. -/
inductive Piece where
  /-- As it stands. -/
  | plain (c : Char)
  /-- Behind a backslash. -/
  | sign (c : Char)
  /-- By its number. -/
  | number (n : Nat)
deriving DecidableEq

/-- The characters of ASCII that can be seen, and the blank. -/
def isPrintable (c : Char) : Bool := 0x20 ≤ c.toNat && c.toNat ≤ 0x7e

def spaced (cs : List Char) : List Char := if needsBlank cs then ' ' :: cs else cs

namespace Piece

/-- The piece, a number with its blank. -/
def text : Piece → List Char
  | plain c => [c]
  | sign c => ['\\', c]
  | number n => byNumber n

/-- The character that is meant. -/
def value : Piece → Char
  | plain c => c
  | sign c => c
  | number n => charOf n

/-- A piece that the reader takes for what it is. -/
def Sound : Piece → Prop
  | plain c => isPrintable c = true ∧ c ≠ '\\'
  | sign c => isPrintable c = true ∧ isHexDigit c = false
  | number n => n < 16 ^ 6

/-- A sound piece that can stand in a name. -/
def InName (p : Piece) : Prop := p.Sound ∧ ∀ c, p = plain c → isNameChar c = true

/-- A sound piece that can stand between quotation marks. -/
def InString (quote : Quote) (p : Piece) : Prop := p.Sound ∧ p ≠ plain quote.char

end Piece

/-- Pieces one after another, with the blanks that are needed. -/
def written : List Piece → List Char
  | [] => []
  | .plain c :: ps => c :: written ps
  | .sign c :: ps => '\\' :: c :: written ps
  | .number n :: ps => '\\' :: (hexCapitals n ++ spaced (written ps))

/-! ## 2. Printable characters -/

/-- What holds of the 95 printable characters one by one holds of all of them. -/
theorem forall_printable {P : Char → Prop} (h : ∀ n ∈ List.range' 0x20 95, P (Char.ofNat n))
    {c : Char} (hc : isPrintable c = true) : P c := by
  rw [isPrintable, Bool.and_eq_true, decide_eq_true_eq, decide_eq_true_eq] at hc
  rw [← Char.ofNat_toNat c]
  apply h
  rw [List.mem_range'_1]
  omega

theorem isPrintable_of_isHexDigit {c : Char} (h : isHexDigit c = true) : isPrintable c = true := by
  simp only [isHexDigit, Char.isDigit, Bool.or_eq_true, Bool.and_eq_true, decide_eq_true_eq,
    Char.le_def, UInt32.le_iff_toNat_le, ge_iff_le] at h
  simp only [isPrintable, Char.toNat, Bool.and_eq_true, decide_eq_true_eq]
  simp only [UInt32.reduceToNat, Char.reduceVal] at h
  omega

theorem isLineBreak_of_isPrintable {c : Char} (hc : isPrintable c = true) : isLineBreak c = false :=
  forall_printable (P := fun c => isLineBreak c = false) (by decide) hc

/-- The only printable blank is the blank itself. -/
theorem isBlank_of_isPrintable {c : Char} (hc : isPrintable c = true) : isBlank c = (c == ' ') :=
  forall_printable (P := fun c => isBlank c = (c == ' ')) (by decide) hc

theorem isPrintable_quote (q : Quote) : isPrintable q.char = true := by cases q <;> decide

theorem isHexDigit_quote (q : Quote) : isHexDigit q.char = false := by cases q <;> decide

/-! ## 3. Blanks that separate nothing -/

/-- A state in which the next backslash escapes. -/
def BlankState.Idle : BlankState → Prop
  | .plain => True
  | .slashes odd => odd = false
  | .number odd _ => odd = false

theorem dropBlanks_idle_cons {st : BlankState} (hst : st.Idle) {c : Char} (hc : c ≠ '\\')
    (cs : List Char) :
    ∃ st' : BlankState, st'.Idle ∧ dropBlanks st (c :: cs) = c :: dropBlanks st' cs := by
  have hrestart : BlankState.restart c = .plain := if_neg (by simpa using hc)
  cases st with
  | plain => exact ⟨.plain, trivial, by rw [dropBlanks, hrestart]⟩
  | slashes odd =>
    rw [dropBlanks, if_neg (by simpa using hc)]
    split
    · exact ⟨.number odd 1, hst, rfl⟩
    · exact ⟨.plain, trivial, rfl⟩
  | number odd count =>
    -- The digits of an idle number stand for themselves: its backslash was taken by the one before.
    have hodd : odd = false := hst
    rw [dropBlanks]
    split
    · exact ⟨.number odd (count + 1), hst, rfl⟩
    · rw [if_neg (by simp [hodd]), hrestart]
      exact ⟨.plain, trivial, rfl⟩

theorem dropBlanks_idle_slash {st : BlankState} (hst : st.Idle) (cs : List Char) :
    dropBlanks st ('\\' :: cs) = '\\' :: dropBlanks (.slashes true) cs := by
  cases st with
  | plain => rfl
  | slashes odd =>
    have hodd : odd = false := hst
    rw [hodd]
    rfl
  | number odd count =>
    have hhex : isHexCapital '\\' = false := by decide
    rw [dropBlanks, if_neg (by simp [hhex]), if_neg (by simp)]
    rfl

/-- A sign behind a backslash leaves the state idle, also if it is a backslash. -/
theorem dropBlanks_sign {st : BlankState} (hst : st.Idle) {c : Char} (hc : isHexDigit c = false)
    (cs : List Char) :
    ∃ st' : BlankState, st'.Idle ∧ dropBlanks st ('\\' :: c :: cs) = '\\' :: c ::
      dropBlanks st' cs := by
  have hcapital : isHexCapital c = false := by
    simp only [isHexDigit, Bool.or_eq_false_iff] at hc
    rw [isHexCapital, hc.1.1, hc.2]
    rfl
  rw [dropBlanks_idle_slash hst, dropBlanks]
  split
  · exact ⟨.slashes false, rfl, rfl⟩
  · rw [if_neg (by simp [hcapital])]
    exact ⟨.plain, trivial, rfl⟩

theorem dropBlanks_digits (ds cs : List Char) (count : Nat) (hds : ∀ d ∈ ds, isHexCapital d = true)
    (hcount : count + ds.length ≤ 6) :
    dropBlanks (.number true count) (ds ++ ' ' :: cs) =
      ds ++ if needsBlank cs then ' ' :: dropBlanks .plain cs else dropBlanks .plain cs := by
  induction ds generalizing count with
  | nil =>
    -- Here the blank is met, and only what stands behind it decides whether it goes.
    have hblank : isHexCapital ' ' = false := by decide
    rw [List.nil_append, dropBlanks, if_neg (by simp [hblank])]
    cases h : needsBlank cs
    · rfl
    · rfl
  | cons d ds ih =>
    rw [List.length_cons] at hcount
    rw [List.cons_append, dropBlanks, if_pos,
      ih (count + 1) (fun d' h => hds d' (.tail d h)) (by omega), List.cons_append]
    rw [hds d (.head ds), Bool.true_and, decide_eq_true_eq]
    omega

theorem dropBlanks_byNumber {st : BlankState} (hst : st.Idle) {n : Nat} (hn : n < 16 ^ 6)
    (cs : List Char) :
    dropBlanks st (byNumber n ++ cs) =
      '\\' :: (hexCapitals n ++ if needsBlank cs then ' ' :: dropBlanks .plain cs
        else dropBlanks .plain cs) := by
  have hlength := hexCapitals_length_le (by decide) hn
  have hcapital : ∀ c ∈ hexCapitals n, isHexCapital c = true :=
    fun c => isHexCapital_of_mem_hexCapitals
  obtain ⟨d, ds, hds, -⟩ := hexCapitals_eq_cons n
  rw [hds] at hlength hcapital
  -- The backslash opens the number and the first digit is counted with it, so five more may follow.
  have hd := hcapital d (.head ds)
  have hslash : d ≠ '\\' := by
    rintro rfl
    exact absurd hd (by decide)
  rw [byNumber, hds, List.cons_append, List.cons_append, List.append_assoc, List.singleton_append,
    List.cons_append, dropBlanks_idle_slash hst, dropBlanks, if_neg (by simpa using hslash),
    if_pos hd, dropBlanks_digits ds cs 1 (fun c h => hcapital c (.tail d h))
    (by rw [List.length_cons] at hlength; omega)]
  rfl

theorem needsBlank_text (ps : List Piece) :
    needsBlank (ps.flatMap Piece.text) = needsBlank (written ps) := by
  cases ps with
  | nil => rfl
  | cons p ps => cases p <;> rfl

/-- **Dropping blanks writes the pieces.** Every blank that goes is the end of a number, never a
blank of the text itself. -/
theorem dropBlanks_pieces (ps : List Piece) (hps : ∀ p ∈ ps, p.Sound) (st : BlankState)
    (hst : st.Idle) :
    dropBlanks st (ps.flatMap Piece.text) = written ps := by
  -- Between two pieces the state is idle, and that is all that the next piece needs to know.
  induction ps generalizing st with
  | nil => cases st <;> rfl
  | cons p ps ih =>
    have hp := hps p (.head ps)
    have hrest : ∀ p ∈ ps, p.Sound := fun p h => hps p (.tail _ h)
    rw [List.flatMap_cons]
    cases p with
    | plain c =>
      obtain ⟨st', hst', heq⟩ := dropBlanks_idle_cons hst hp.2 (ps.flatMap Piece.text)
      rw [Piece.text, List.singleton_append, heq, ih hrest st' hst', written]
    | sign c =>
      obtain ⟨st', hst', heq⟩ := dropBlanks_sign hst hp.2 (ps.flatMap Piece.text)
      rw [Piece.text, List.cons_append, List.singleton_append, heq, ih hrest st' hst', written]
    | number n =>
      rw [Piece.text, dropBlanks_byNumber hst hp, needsBlank_text, ih hrest .plain trivial, written,
        spaced]

end UniqueSelector.Selector
