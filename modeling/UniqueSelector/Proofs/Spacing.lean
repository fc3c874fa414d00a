import UniqueSelector.Proofs.Formulas
import UniqueSelector.Proofs.TagNames

/-!
# Spacing — which formulas are read, and where blanks may stand in them

A formula is written in words: one word for all of it, or the step with its letter, a sign, and the
digits of the offset. Blanks may stand at the ends and between two words. The reader drops all
blanks before it looks at the text, so it also takes a text whose blanks stand within a word, as
long as the rest is a formula. That apart, it reads the formulas and nothing else.
-/

namespace UniqueSelector

namespace Selector.Nth

/-! ## 1. Numbers -/

/-- What stands in front of a number. -/
inductive Sign where
  | bare
  | plus
  | minus

def Sign.text : Sign → List Char
  | .bare => []
  | .plus => ['+']
  | .minus => ['-']

def Sign.apply : Sign → Nat → Int
  | .minus, n => -Int.ofNat n
  | _, n => Int.ofNat n

/-- A row of decimal digits. -/
structure Digits (ds : List Char) : Prop where
  ne_nil : ds ≠ []
  isDigit : ∀ c ∈ ds, c.isDigit = true

/-- The digits with the sign in front write a number of 32 bits. -/
structure Number (sign : Sign) (ds : List Char) (n : Int) : Prop where
  digits : Digits ds
  value : n = sign.apply (numberOf 10 ds)
  inRange : IsInt32 n

theorem natural?_eq_some_iff {ds : List Char} {n : Nat} :
    natural? ds = some n ↔ Digits ds ∧ n = numberOf 10 ds := by
  rw [natural?]
  split
  · next h =>
    rw [Bool.or_eq_true, List.isEmpty_iff, Bool.not_eq_true', List.all_eq_false] at h
    constructor
    · exact fun hn => by cases hn
    · rintro ⟨hds, -⟩
      rcases h with h | ⟨c, hc, hdigit⟩
      · exact absurd h hds.ne_nil
      · exact absurd (hds.isDigit c hc) hdigit
  · next h =>
    rw [Bool.not_eq_true, Bool.or_eq_false_iff, List.isEmpty_eq_false_iff, Bool.not_eq_false',
      List.all_eq_true] at h
    rw [Option.some_inj]
    exact ⟨fun hn => ⟨⟨h.1, h.2⟩, hn.symm⟩, fun hds => hds.2.symm⟩

theorem inert_of_isDigit {c : Char} (h : c.isDigit = true) : Inert c := by
  rw [Char.isDigit, Bool.and_eq_true, decide_eq_true_eq, decide_eq_true_eq] at h
  obtain ⟨hlow, hhigh⟩ : 48 ≤ c.toNat ∧ c.toNat ≤ 57 := h
  rw [← Char.ofNat_toNat c]
  interval_cases c.toNat <;> constructor <;> decide

theorem Digits.inert {ds : List Char} (hds : Digits ds) {c : Char} (hc : c ∈ ds) : Inert c :=
  inert_of_isDigit (hds.isDigit c hc)

theorem Sign.figure_of_mem {sign : Sign} {c : Char} (hc : c ∈ sign.text) : Figure c := by
  cases sign with
  | bare => cases hc
  | plus => exact .inr (.inl (List.mem_singleton.1 hc))
  | minus => exact .inr (.inr (List.mem_singleton.1 hc))

theorem integer?_eq_some_iff {w : List Char} {n : Int} :
    integer? w = some n ↔ ∃ (sign : Sign) (ds : List Char),
      w = sign.text ++ ds ∧ Digits ds ∧ n = sign.apply (numberOf 10 ds) := by
  have hread : ∀ {ds : List Char} (sign : Sign),
      (natural? ds).map sign.apply = some n ↔ Digits ds ∧ n = sign.apply (numberOf 10 ds) := by
    intro ds sign
    simp only [Option.map_eq_some_iff, natural?_eq_some_iff]
    constructor
    · rintro ⟨_, ⟨hds, rfl⟩, rfl⟩
      exact ⟨hds, rfl⟩
    · rintro ⟨hds, rfl⟩
      exact ⟨_, ⟨hds, rfl⟩, rfl⟩
  constructor
  · fun_cases integer? w with
    | case1 ds => exact fun h => ⟨.plus, ds, rfl, (hread .plus).1 h⟩
    | case2 ds => exact fun h => ⟨.minus, ds, rfl, (hread .minus).1 h⟩
    | case3 hplus hminus => exact fun h => ⟨.bare, w, rfl, (hread .bare).1 h⟩
  · rintro ⟨sign, ds, rfl, hds⟩
    cases sign with
    | plus => exact (hread .plus).2 hds
    | minus => exact (hread .minus).2 hds
    | bare =>
      show integer? ds = _
      -- A sign in front would be taken off, but no digit is one.
      rw [integer?.eq_def]
      split
      · exact absurd rfl (hds.1.inert (.head _)).ne_plus
      · exact absurd rfl (hds.1.inert (.head _)).ne_minus
      · exact (hread .bare).2 hds

theorem int32?_eq_some_iff {w : List Char} {n : Int} :
    int32? w = some n ↔ ∃ (sign : Sign) (ds : List Char), w = sign.text ++ ds ∧
      Number sign ds n := by
  rw [int32?, Option.filter_eq_some_iff, integer?_eq_some_iff, Bool.and_eq_true, decide_eq_true_eq,
    decide_eq_true_eq]
  constructor
  · rintro ⟨⟨sign, ds, hw, hds, hn⟩, hrange⟩
    exact ⟨sign, ds, hw, hds, hn, hrange⟩
  · rintro ⟨sign, ds, hw, hds, hn, hrange⟩
    exact ⟨⟨sign, ds, hw, hds, hn⟩, hrange⟩

/-! ## 2. Words -/

/-- The text in front of the letter; the letter or its sign alone counts one. -/
inductive Step : List Char → Int → Prop where
  | one (sign : Sign) : Step sign.text (sign.apply 1)
  | number {sign : Sign} {ds : List Char} {n : Int} (h : Number sign ds n) :
    Step (sign.text ++ ds) n

/-- The words of a formula in small letters, and its step and offset. -/
inductive Words : List (List Char) → Nth → Prop where
  | odd : Words ["odd".toList] ⟨2, 1⟩
  | even : Words ["even".toList] ⟨2, 0⟩
  | offset {sign : Sign} {ds : List Char} {b : Int} (h : Number sign ds b) :
    Words [sign.text ++ ds] ⟨0, b⟩
  | step {w : List Char} {a : Int} (h : Step w a) : Words [w ++ ['n']] ⟨a, 0⟩
  | full {w : List Char} {a : Int} {sign : Sign} {ds : List Char} {b : Int} (hw : Step w a)
    (hsign : sign ≠ .bare) (hds : Number sign ds b) : Words [w ++ ['n'], sign.text, ds] ⟨a, b⟩

theorem Figure.ne_letter {c : Char} (h : Figure c) : c ≠ 'n' ∧ c ≠ 'o' := by
  rcases h with h | rfl | rfl
  · exact ⟨h.ne_variable, h.ne_odd⟩
  · decide
  · decide

theorem Number.figure {sign : Sign} {ds : List Char} {n : Int} (h : Number sign ds n) {c : Char}
    (hc : c ∈ sign.text ++ ds) : Figure c :=
  (List.mem_append.1 hc).elim Sign.figure_of_mem fun hc => .inl (h.digits.inert hc)

theorem Step.figure {w : List Char} {a : Int} (h : Step w a) {c : Char} (hc : c ∈ w) :
    Figure c := by
  cases h with
  | one sign => exact Sign.figure_of_mem hc
  | number h => exact h.figure hc

theorem readStep?_eq_some_iff {w : List Char} {a : Int} : readStep? w = some a ↔ Step w a := by
  constructor
  · fun_cases readStep? w with
    | case1 =>
      rintro ⟨⟩
      exact .one .bare
    | case2 =>
      rintro ⟨⟩
      exact .one .plus
    | case3 =>
      rintro ⟨⟩
      exact .one .minus
    | case4 hempty hplus hminus =>
      intro h
      obtain ⟨sign, ds, rfl, hds⟩ := int32?_eq_some_iff.1 h
      exact .number hds
  · rintro (sign | h)
    · cases sign <;> rfl
    · exact readStep?_of_int32? (int32?_eq_some_iff.2 ⟨_, _, rfl, h⟩)

theorem readOffset?_eq_some_iff {w : List Char} {b : Int} : readOffset? w = some b ↔
    w = [] ∧ b = 0 ∨ ∃ (sign : Sign) (ds : List Char), sign ≠ .bare ∧ w = sign.text ++ ds ∧
      Number sign ds b := by
  constructor
  · fun_cases readOffset? w with
    | case1 =>
      rintro ⟨⟩
      exact .inl ⟨rfl, rfl⟩
    | case2 c cs hsign =>
      intro h
      obtain ⟨sign, ds, hw, hds⟩ := int32?_eq_some_iff.1 h
      refine .inr ⟨sign, ds, ?_, hw, hds⟩
      rintro rfl
      -- Without its sign the text would begin with a digit.
      have hw : c :: cs = ds := hw
      have hc : Inert c := hds.digits.inert (hw ▸ .head cs)
      simp [hc.ne_plus, hc.ne_minus] at hsign
    | case3 => exact fun h => by cases h
  · rintro (⟨rfl, rfl⟩ | ⟨sign, ds, hsign, rfl, hds⟩)
    · rfl
    · have hread := int32?_eq_some_iff.2 ⟨sign, ds, rfl, hds⟩
      have hempty : ds.isEmpty = false := List.isEmpty_eq_false_iff.2 hds.digits.ne_nil
      cases sign with
      | bare => exact absurd rfl hsign
      | plus => rwa [Sign.text, List.singleton_append, readOffset?, hempty, if_pos (by rfl)]
      | minus => rwa [Sign.text, List.singleton_append, readOffset?, hempty, if_pos (by rfl)]

/-- **Without blanks and capitals, the words of a formula are read and nothing else is.** -/
theorem readCompact?_eq_some_iff {w : List Char} {nth : Nth} :
    readCompact? w = some nth ↔ ∃ ws, Words ws nth ∧ w = ws.flatten := by
  constructor
  · fun_cases readCompact? w with
    | case1 h =>
      rintro ⟨⟩
      exact ⟨_, .odd, by simpa using h⟩
    | case2 hodd h =>
      rintro ⟨⟩
      exact ⟨_, .even, by simpa using h⟩
    | case3 => exact fun h => by cases h
    | case4 hodd heven hempty hdrop =>
      intro h
      obtain ⟨b, hb, rfl⟩ := Option.map_eq_some_iff.1 h
      obtain ⟨sign, ds, rfl, hds⟩ := int32?_eq_some_iff.1 hb
      exact ⟨_, .offset hds, (List.append_nil _).symm⟩
    | case5 hodd heven hempty c rest hdrop =>
      intro h
      obtain ⟨a, ha, h⟩ := Option.bind_eq_some_iff.1 h
      obtain ⟨b, hb, heq⟩ := Option.bind_eq_some_iff.1 h
      cases heq
      -- The text is parted at its first letter.
      have hc : c = 'n' := by
        have hhead := List.head?_dropWhile_not (· != 'n') w
        rw [hdrop] at hhead
        simpa using hhead
      have hw : w = w.takeWhile (· != 'n') ++ 'n' :: rest := by
        conv_lhs => rw [← List.takeWhile_append_dropWhile (p := (· != 'n')) (l := w), hdrop, hc]
      have hstep := readStep?_eq_some_iff.1 ha
      rcases readOffset?_eq_some_iff.1 hb with ⟨rfl, rfl⟩ | ⟨sign, ds, hsign, rfl, hds⟩
      · exact ⟨_, .step hstep, by simpa using hw⟩
      · exact ⟨_, .full hstep hsign hds, by simpa using hw⟩
  · rintro ⟨ws, hws, rfl⟩
    cases hws with
    | odd => rfl
    | even => rfl
    | offset h =>
      rw [List.flatten_singleton,
        readCompact?_of_no_letter (List.append_ne_nil_of_right_ne_nil _ h.digits.ne_nil) fun c hc =>
          (h.figure hc).ne_letter, int32?_eq_some_iff.2 ⟨_, _, rfl, h⟩]
      rfl
    | step h =>
      have hempty : readOffset? [] = some 0 := rfl
      rw [List.flatten_singleton, readCompact?_letter fun c => h.figure, readStep?_eq_some_iff.2 h,
        hempty]
      rfl
    | @full w a sign ds b hw hsign hds =>
      have hflatten : [w ++ ['n'], sign.text, ds].flatten = w ++ 'n' :: (sign.text ++ ds) := by simp
      rw [hflatten, readCompact?_letter fun c => hw.figure, readStep?_eq_some_iff.2 hw,
        readOffset?_eq_some_iff.2 (.inr ⟨sign, ds, hsign, rfl, hds⟩)]
      rfl

/-! ## 3. Blanks between words -/

/-- What is left of a text without its blanks. -/
def unspaced (t : List Char) : List Char := t.filter fun c => !isBlank c

/-- The text of some words, with blanks at its ends and between them at will. -/
def Spread : List (List Char) → List Char → Prop
  | [], t => ∀ c ∈ t, isBlank c = true
  | w :: ws, t =>
    ∃ gap rest, t = gap ++ (w ++ rest) ∧ (∀ c ∈ gap, isBlank c = true) ∧ Spread ws rest

/-- A word has no blanks in it, and is not empty. -/
def Solid (w : List Char) : Prop := w ≠ [] ∧ ∀ c ∈ w, isBlank c = false

theorem unspaced_append (s t : List Char) : unspaced (s ++ t) = unspaced s ++ unspaced t :=
  List.filter_append s t

theorem unspaced_eq_nil_iff {t : List Char} : unspaced t = [] ↔ ∀ c ∈ t, isBlank c = true := by
  rw [unspaced, List.filter_eq_nil_iff]
  exact forall₂_congr fun c _ => by simp

theorem unspaced_eq_self_iff {t : List Char} : unspaced t = t ↔ ∀ c ∈ t, isBlank c = false := by
  rw [unspaced, List.filter_eq_self]
  exact forall₂_congr fun c _ => by simp

theorem Spread.unspaced_eq {ws : List (List Char)} (hws : ∀ w ∈ ws, Solid w) {t : List Char}
    (h : Spread ws t) :
    unspaced t = ws.flatten := by
  induction ws generalizing t with
  | nil => exact unspaced_eq_nil_iff.2 h
  | cons w ws ih =>
    obtain ⟨gap, rest, rfl, hgap, hrest⟩ := h
    rw [unspaced_append, unspaced_append, unspaced_eq_nil_iff.2 hgap,
      unspaced_eq_self_iff.2 (hws w (.head ws)).2, ih (fun w hw => hws w (.tail _ hw)) hrest]
    rfl

/-- A blank stands behind some of the words and in front of the others. -/
theorem Spread.exists_take {ws : List (List Char)} (hws : ∀ w ∈ ws, Solid w) {t : List Char}
    (h : Spread ws t) {before after : List Char} {b : Char} (ht : t = before ++ b :: after)
    (hb : isBlank b = true) :
    ∃ k, unspaced before = (ws.take k).flatten := by
  induction ws generalizing t before with
  | nil =>
    refine ⟨0, unspaced_eq_nil_iff.2 fun c hc => h c ?_⟩
    rw [ht]
    exact List.mem_append_left _ hc
  | cons w ws ih =>
    obtain ⟨gap, rest, rfl, hgap, hrest⟩ := h
    rcases List.append_eq_append_iff.1 ht with ⟨inner, rfl, hinner⟩ | ⟨more, rfl, -⟩
    · rcases List.append_eq_append_iff.1 hinner with ⟨before, rfl, hbefore⟩ | ⟨more, hmore, hafter⟩
      · obtain ⟨k, hk⟩ := ih (fun w hw => hws w (.tail _ hw)) hrest hbefore
        refine ⟨k + 1, ?_⟩
        rw [unspaced_append, unspaced_append, unspaced_eq_nil_iff.2 hgap,
          unspaced_eq_self_iff.2 (hws w (.head ws)).2, hk]
        rfl
      · cases more with
        | nil =>
          refine ⟨1, ?_⟩
          rw [List.append_nil] at hmore
          rw [unspaced_append, unspaced_eq_nil_iff.2 hgap, ← hmore,
            unspaced_eq_self_iff.2 (hws w (.head ws)).2]
          simp
        | cons c more =>
          -- The blank would be in the word.
          obtain ⟨rfl, -⟩ := List.cons.inj hafter
          have hsolid := (hws w (.head ws)).2 b (hmore ▸ List.mem_append_right _ (.head more))
          rw [hb] at hsolid
          cases hsolid
    · exact ⟨0, unspaced_eq_nil_iff.2 fun c hc => hgap c (List.mem_append_left _ hc)⟩

/-- A text begins with blanks, then comes a run of characters up to the next blank or the end. -/
theorem exists_run (t : List Char) :
    ∃ gap run more, t = gap ++ (run ++ more) ∧ (∀ c ∈ gap, isBlank c = true) ∧
      (∀ c ∈ run, isBlank c = false) ∧ (run = [] → more = []) ∧
      ∀ c ∈ more.head?, isBlank c = true := by
  have hmore : ∀ c ∈ ((t.dropWhile isBlank).dropWhile fun c => !isBlank c).head?,
      isBlank c = true := by
    intro c hc
    have hhead := List.head?_dropWhile_not (fun c => !isBlank c) (t.dropWhile isBlank)
    rw [hc] at hhead
    simpa using hhead
  refine ⟨t.takeWhile isBlank, (t.dropWhile isBlank).takeWhile fun c => !isBlank c,
    (t.dropWhile isBlank).dropWhile fun c =>
      !isBlank c, ?_, fun c => List.mem_takeWhile_imp, ?_, ?_, hmore⟩
  · rw [List.takeWhile_append_dropWhile, List.takeWhile_append_dropWhile]
  · intro c hc
    simpa using List.mem_takeWhile_imp hc
  · intro hrun
    have hhead := List.head?_dropWhile_not isBlank t
    cases hdrop : t.dropWhile isBlank with
    | nil => rfl
    | cons c cs =>
      rw [hdrop] at hhead hrun
      have hc : isBlank c = false := hhead
      simp [hc] at hrun

/-- A text with the right letters is spread rightly if each of its blanks stands behind some of
the words. -/
theorem spread_of_exists_take {ws : List (List Char)} (hws : ∀ w ∈ ws, Solid w) {t : List Char}
    (ht : unspaced t = ws.flatten)
    (hblanks : ∀ before b after, t = before ++ b :: after → isBlank b = true →
      ∃ k, unspaced before = (ws.take k).flatten) : Spread ws t := by
  induction ws generalizing t with
  | nil => exact unspaced_eq_nil_iff.1 ht
  | cons w ws ih =>
    have hw := hws w (.head ws)
    obtain ⟨gap, run, more, rfl, hgap, hrun, hempty, hmore⟩ := exists_run t
    have hflatten : run ++ unspaced more = w ++ ws.flatten := by
      rwa [unspaced_append, unspaced_append, unspaced_eq_nil_iff.2 hgap,
        unspaced_eq_self_iff.2 hrun] at ht
    -- The run is made of whole words, and there is at least one.
    obtain ⟨rest, hrest⟩ : ∃ rest, run ++ more = w ++ rest := by
      cases more with
      | nil => exact ⟨ws.flatten, hflatten⟩
      | cons b after =>
        obtain ⟨k, hk⟩ :=
          hblanks (gap ++ run) b after (List.append_assoc gap run _).symm (hmore b rfl)
        rw [unspaced_append, unspaced_eq_nil_iff.2 hgap, unspaced_eq_self_iff.2 hrun] at hk
        cases k with
        | zero => exact absurd (hempty hk) (List.cons_ne_nil b after)
        | succ k =>
          have hrun : run = w ++ (ws.take k).flatten := hk
          exact ⟨(ws.take k).flatten ++ b :: after, by rw [hrun, List.append_assoc]⟩
    refine ⟨gap, rest, by rw [hrest], hgap,
      ih (fun w hw => hws w (.tail _ hw)) ?_ fun before b after heq hb => ?_⟩
    · rw [hrest, unspaced_append, unspaced_append, unspaced_eq_nil_iff.2 hgap,
        unspaced_eq_self_iff.2 hw.2] at ht
      exact List.append_cancel_left ht
    · obtain ⟨k, hk⟩ := hblanks (gap ++ (w ++ before)) b after (by rw [hrest, heq]; simp) hb
      rw [unspaced_append, unspaced_append, unspaced_eq_nil_iff.2 hgap,
        unspaced_eq_self_iff.2 hw.2] at hk
      cases k with
      | zero =>
        have hk : w ++ unspaced before = [] := hk
        exact absurd (List.append_eq_nil_iff.1 hk).1 hw.1
      | succ k => exact ⟨k, List.append_cancel_left hk⟩

/-! ## 4. Formulas -/

/-- A text that writes a formula, in capital or small letters. -/
def Formula (t : List Char) (nth : Nth) : Prop :=
  ∃ ws, Words ws nth ∧ Spread ws (t.map Char.toLower)

/-- Each blank of a text stands in front of all, behind all, behind the letter, or behind the sign
that follows it. -/
def Seamless (t : List Char) : Prop :=
  ∀ before b after, t.map Char.toLower = before ++ b :: after → isBlank b = true →
  unspaced before = [] ∨ unspaced after = [] ∨
    ∃ (step : List Char) (sign : Sign), unspaced before = step ++ 'n' :: sign.text

theorem solid_of_all {w : List Char} (hne : w ≠ []) (hw : w.all (fun c => !isBlank c) = true) :
    Solid w :=
  ⟨hne, fun c hc => by simpa using List.all_eq_true.1 hw c hc⟩

theorem solid_of_figures {w : List Char} (hne : w ≠ []) (hw : ∀ c ∈ w, Figure c) : Solid w :=
  ⟨hne, fun c hc => (hw c hc).sound.1⟩

theorem Step.solid_letter {w : List Char} {a : Int} (h : Step w a) : Solid (w ++ ['n']) := by
  refine ⟨List.append_ne_nil_of_right_ne_nil w (by decide), fun c hc => ?_⟩
  rcases List.mem_append.1 hc with hc | hc
  · exact (h.figure hc).sound.1
  · rw [List.mem_singleton.1 hc]
    decide

theorem Words.solid {ws : List (List Char)} {nth : Nth} (h : Words ws nth) : ∀ w ∈ ws, Solid w := by
  cases h with
  | odd => exact List.forall_mem_singleton.2 (solid_of_all (by decide) (by decide))
  | even => exact List.forall_mem_singleton.2 (solid_of_all (by decide) (by decide))
  | offset h =>
    refine List.forall_mem_singleton.2 (solid_of_figures ?_ fun c => h.figure)
    exact List.append_ne_nil_of_right_ne_nil _ h.digits.ne_nil
  | step h => exact List.forall_mem_singleton.2 h.solid_letter
  | @full w a sign ds b hw hsign hds =>
    have hsolid : Solid sign.text := by
      cases sign with
      | bare => exact absurd rfl hsign
      | plus => exact solid_of_all (by decide) (by decide)
      | minus => exact solid_of_all (by decide) (by decide)
    intro w hmem
    simp only [List.mem_cons, List.not_mem_nil, or_false] at hmem
    rcases hmem with rfl | rfl | rfl
    · exact hw.solid_letter
    · exact hsolid
    · exact solid_of_figures hds.digits.ne_nil fun c hc => .inl (hds.digits.inert hc)

theorem Step.letter_notMem {w : List Char} {a : Int} (h : Step w a) : 'n' ∉ w :=
  fun hc => (h.figure hc).ne_letter.1 rfl

/-- The letter stands at the end of a word, if it is there; and then a sign and digits
may follow. -/
theorem Words.exists_letter {ws : List (List Char)} {nth : Nth} (h : Words ws nth) :
    (∃ w, ws = [w] ∧ 'n' ∉ w) ∨ (∃ w, ws = [w ++ ['n']] ∧ 'n' ∉ w) ∨
      ∃ (w : List Char) (sign : Sign) (ds : List Char),
        ws = [w ++ ['n'], sign.text, ds] ∧ 'n' ∉ w ∧ sign ≠ .bare ∧ Digits ds := by
  cases h with
  | odd => exact .inl ⟨_, rfl, by decide⟩
  | even => exact .inr (.inl ⟨['e', 'v', 'e'], by decide, by decide⟩)
  | offset h => exact .inl ⟨_, rfl, fun hc => (h.figure hc).ne_letter.1 rfl⟩
  | step h => exact .inr (.inl ⟨_, rfl, h.letter_notMem⟩)
  | full hw hsign hds => exact .inr (.inr ⟨_, _, _, rfl, hw.letter_notMem, hsign, hds.digits⟩)

/-- What the words show up to the letter or the sign behind it are whole words. -/
theorem Words.exists_take {ws : List (List Char)} {nth : Nth} (h : Words ws nth) {step : List Char}
    {sign : Sign} {after : List Char} (hws : step ++ 'n' :: (sign.text ++ after) = ws.flatten) :
    ∃ k, step ++ 'n' :: sign.text = (ws.take k).flatten := by
  rcases h.exists_letter with ⟨w, rfl, hw⟩ | ⟨w, rfl, hw⟩ | ⟨w, sign', ds, rfl, hw, hsign', hds⟩
  · rw [List.flatten_singleton] at hws
    exact absurd (hws ▸ List.mem_append_right _ (.head _)) hw
  · rw [List.flatten_singleton] at hws
    obtain ⟨rfl, -, hrest⟩ := (List.append_cons_inj_of_notMem hw List.not_mem_nil).1 hws.symm
    refine ⟨1, ?_⟩
    rw [(List.append_eq_nil_iff.1 hrest.symm).1]
    exact (List.append_nil _).symm
  · have hflatten : [w ++ ['n'], sign'.text, ds].flatten = w ++ 'n' :: (sign'.text ++ ds) := by simp
    have hrest : 'n' ∉ sign'.text ++ ds := by
      intro hmem
      rcases List.mem_append.1 hmem with hmem | hmem
      · exact (Sign.figure_of_mem hmem).ne_letter.1 rfl
      · exact (hds.inert hmem).ne_variable rfl
    obtain ⟨rfl, -, hrest⟩ := (List.append_cons_inj_of_notMem hw hrest).1 (hflatten ▸ hws.symm)
    -- Behind the letter the same sign stands, or the blank is in front of it.
    have hsign : sign = .bare ∨ sign = sign' := by
      cases sign with
      | bare => exact .inl rfl
      | plus =>
        cases sign' with
        | bare => exact absurd rfl hsign'
        | plus => exact .inr rfl
        | minus => exact absurd (List.cons.inj hrest).1 (by decide)
      | minus =>
        cases sign' with
        | bare => exact absurd rfl hsign'
        | plus => exact absurd (List.cons.inj hrest).1 (by decide)
        | minus => exact .inr rfl
    rcases hsign with rfl | rfl
    · exact ⟨1, by simp [Sign.text]⟩
    · exact ⟨2, by simp⟩

theorem Words.spread_iff {ws : List (List Char)} {nth : Nth} (h : Words ws nth) {t : List Char}
    (ht : unspaced (t.map Char.toLower) = ws.flatten) :
    Spread ws (t.map Char.toLower) ↔ Seamless t := by
  have hsides : ∀ {before after : List Char} {b : Char}, t.map Char.toLower = before ++ b :: after →
      isBlank b = true → unspaced before ++ unspaced after = ws.flatten := by
    intro before after b heq hb
    rw [← ht, heq, unspaced_append]
    congr 1
    rw [unspaced, unspaced, List.filter_cons_of_neg (by simp [hb])]
  constructor
  · intro hspread before b after heq hb
    obtain ⟨k, hk⟩ := hspread.exists_take h.solid heq hb
    have hsides := hsides heq hb
    -- Behind all words nothing is left.
    have hall : ws.length ≤ k → unspaced after = [] := by
      intro hlength
      rw [hk, List.take_of_length_le hlength] at hsides
      exact List.append_right_eq_self.1 hsides
    cases k with
    | zero => exact .inl hk
    | succ k =>
      rcases h.exists_letter with ⟨w, rfl, -⟩ | ⟨w, rfl, -⟩ | ⟨w, sign, ds, rfl, -⟩
      · exact .inr (.inl (hall (Nat.le_add_left 1 k)))
      · exact .inr (.inl (hall (Nat.le_add_left 1 k)))
      · -- Only between these three words a blank may have something on both sides.
        match k with
        | 0 => exact .inr (.inr ⟨w, .bare, by simpa [Sign.text] using hk⟩)
        | 1 => exact .inr (.inr ⟨w, sign, by simpa using hk⟩)
        | k + 2 => exact .inr (.inl (hall (Nat.le_add_left 3 k)))
  · intro hseamless
    refine spread_of_exists_take h.solid ht fun before b after heq hb => ?_
    have hsides := hsides heq hb
    rcases hseamless before b after heq hb with hbefore | hafter | ⟨step, sign, hletter⟩
    · exact ⟨0, hbefore⟩
    · refine ⟨ws.length, ?_⟩
      rwa [hafter, List.append_nil, ← List.take_length (l := ws)] at hsides
    · rw [hletter, List.append_assoc, List.cons_append] at hsides
      rw [hletter]
      exact h.exists_take hsides

/-! ## 5. What is read -/

theorem isBlank_toLower_eq (c : Char) : isBlank c.toLower = isBlank c := by
  cases hc : isBlank c with
  | false => exact Markup.isBlank_toLower hc
  | true =>
    simp only [isBlank, Bool.or_eq_true, beq_iff_eq] at hc
    rcases hc with (((rfl | rfl) | rfl) | rfl) | rfl <;> rfl

theorem unspaced_map_toLower (t : List Char) :
    unspaced (t.map Char.toLower) = (unspaced t).map Char.toLower := by
  have hblank : (fun c => !isBlank c) ∘ Char.toLower = fun c => !isBlank c :=
    funext fun c => congrArg not (isBlank_toLower_eq c)
  rw [unspaced, List.filter_map, hblank, unspaced]

theorem unspaced_unspaced (t : List Char) : unspaced (unspaced t) = unspaced t := by
  rw [unspaced, unspaced, List.filter_filter]
  simp

theorem spread_flatten (ws : List (List Char)) : Spread ws ws.flatten := by
  induction ws with
  | nil => exact fun c hc => by cases hc
  | cons w ws ih => exact ⟨[], ws.flatten, rfl, fun c hc => (by cases hc), ih⟩

/-- **What is read is what the text writes without its blanks.** -/
theorem read?_eq_some_iff {t : List Char} {nth : Nth} :
    read? t = some nth ↔ Formula (unspaced t) nth := by
  show readCompact? ((unspaced t).map Char.toLower) = some nth ↔ _
  rw [readCompact?_eq_some_iff]
  refine exists_congr fun ws =>
    and_congr_right fun hws => ⟨fun h => h ▸ spread_flatten ws, fun h => ?_⟩
  rw [← h.unspaced_eq hws.solid, unspaced_map_toLower, unspaced_unspaced]

example : read? " -N +\t3 ".toList = some ⟨-1, 3⟩ := by decide

/-- Where there are the right letters, only the places of the blanks decide. -/
theorem formula_iff_seamless {t : List Char} {nth : Nth} (h : Formula (unspaced t) nth) :
    Formula t nth ↔ Seamless t := by
  constructor
  · rintro ⟨ws, hws, hspread⟩
    exact (hws.spread_iff (hspread.unspaced_eq hws.solid)).1 hspread
  · intro hseamless
    obtain ⟨ws, hws, hspread⟩ := h
    refine ⟨ws, hws, (hws.spread_iff ?_).2 hseamless⟩
    rw [← hspread.unspaced_eq hws.solid, unspaced_map_toLower, unspaced_map_toLower,
      unspaced_unspaced]

/-- Blanks that may stand in a formula do not matter. -/
theorem Formula.of_unspaced {t : List Char} {nth : Nth} (h : Formula t nth) :
    Formula (unspaced t) nth := by
  obtain ⟨ws, hws, hspread⟩ := h
  refine ⟨ws, hws, ?_⟩
  rw [← unspaced_map_toLower, hspread.unspaced_eq hws.solid]
  exact spread_flatten ws

theorem parse_nthChild {argument : String} (h : '(' ∉ argument.toList ∧ ')' ∉ argument.toList) :
    parse (":nth-child(" ++ argument ++ ")") =
      match read? argument.toList with
      | some nth => .ok [⟨[.pseudo (.nthChild nth)], []⟩]
      | none => .error (.invalidNth argument) := by
  have hname : ":nth-child(".toList = ':' :: (nthChildName ++ ['(']) := by decide
  have hend : ")".toList = [')'] := by decide
  have htext : ":nth-child(" ++ argument ++ ")" =
      String.ofList (':' :: (nthChildName ++ '(' :: (argument.toList ++ [')']))) := by
    apply String.toList_injective
    rw [String.toList_append, String.toList_append, hname, hend, String.toList_ofList]
    simp
  have hparentheses : ∀ c ∈ argument.toList, c ≠ '(' ∧ c ≠ ')' := by
    intro c hc
    exact ⟨fun heq => h.1 (heq ▸ hc), fun heq => h.2 (heq ▸ hc)⟩
  have hopens : Opens (':' :: (nthChildName ++ '(' :: (argument.toList ++ [')']))) :=
    ⟨':', _, rfl, by decide, by decide, rfl⟩
  have hhead : readHead (':' :: (nthChildName ++ '(' :: (argument.toList ++ [')']))) =
      ([], ':' :: (nthChildName ++ '(' :: (argument.toList ++ [')']))) :=
    readHead_of_not_startsName (by decide) rfl
  have hcompound :=
    fun total => readCompound_of_readSimple hhead (readSimple_nthChild hparentheses total [])
  rw [htext]
  cases hread : read? argument.toList with
  | none =>
    simp only [hread, Reading.fail_bind, String.ofList_toList] at hcompound
    have hlinked : ∀ total, readLinked total
        (':' :: (nthChildName ++ '(' :: (argument.toList ++ [')']))) =
        .fault (.invalidNth argument) [] := by
      intro total
      rw [readLinked, hcompound, Reading.fail_bind]
      rfl
    exact parse_of_readLinked_fault hopens hlinked
  | some nth =>
    simp only [hread, Reading.pure_bind, stops_nil.readSimples] at hcompound
    exact parse_of_readLinked hopens fun total => readLinked_lone (hcompound total)

/-- The argument is read as what it writes; if it writes nothing, the fault names it. -/
structure ReadAs (argument : String) (writes : Nth → Prop) : Prop where
  read : ∀ nth, read? argument.toList = some nth ↔ writes nth
  parse : ∀ nth, parse (":nth-child(" ++ argument ++ ")") = .ok [⟨[.pseudo (.nthChild nth)], []⟩] ↔
    writes nth
  fault : (¬∃ nth, writes nth) → read? argument.toList = none ∧
    Selector.parse (":nth-child(" ++ argument ++ ")") = .error (.invalidNth argument)

theorem readAs_unspaced {argument : String} (h : '(' ∉ argument.toList ∧ ')' ∉ argument.toList) :
    ReadAs argument (Formula (unspaced argument.toList)) := by
  have hparse := parse_nthChild h
  refine ⟨fun nth => read?_eq_some_iff, fun nth => ?_, fun hnone => ?_⟩
  · rw [hparse, ← read?_eq_some_iff]
    cases read? argument.toList with
    | none => simp
    | some nth' => simp
  · have hread : read? argument.toList = none := by
      rw [Option.eq_none_iff_forall_ne_some]
      exact fun nth hnth => hnone ⟨nth, read?_eq_some_iff.1 hnth⟩
    refine ⟨hread, ?_⟩
    rw [hparse, hread]

/-- **A formula is read with its blanks dropped.** So an argument is read as the grammar says if and
only if it writes no formula even without its blanks, or its blanks stand where they may. -/
theorem readAs_formula_iff {argument : String} (h : '(' ∉ argument.toList ∧ ')' ∉ argument.toList) :
    ReadAs argument (Formula (unspaced argument.toList)) ∧
      (ReadAs argument (Formula argument.toList) ↔
        ((∃ nth, Formula (unspaced argument.toList) nth) → Seamless argument.toList)) := by
  have hunspaced := readAs_unspaced h
  refine ⟨hunspaced, fun hformula hwrites => ?_, fun hseamless => ?_⟩
  · obtain ⟨nth, hnth⟩ := hwrites
    exact (formula_iff_seamless hnth).1 ((hformula.read nth).1 ((hunspaced.read nth).2 hnth))
  · have hwrites : Formula argument.toList = Formula (unspaced argument.toList) := by
      funext nth
      exact propext ⟨Formula.of_unspaced,
        fun hnth => (formula_iff_seamless hnth).2 (hseamless ⟨nth, hnth⟩)⟩
    rw [hwrites]
    exact hunspaced

/-- The blanks around the sign may stand, and capitals are small letters. -/
theorem readAs_formula_iff_spaced :
    let argument := " -N +\t3 "
    ('(' ∉ argument.toList ∧ ')' ∉ argument.toList) ∧
      ReadAs argument (Formula (unspaced argument.toList)) ∧
      (ReadAs argument (Formula argument.toList) ↔
        ((∃ nth, Formula (unspaced argument.toList) nth) → Seamless argument.toList)) := by
  intro argument
  have h : '(' ∉ argument.toList ∧ ')' ∉ argument.toList := by decide
  exact ⟨h, readAs_formula_iff h⟩

/-- Two numbers with a blank between them are no formula, and they are read as one number. -/
theorem parse_nthChild_split : parse ":nth-child(1 2)" = .ok [⟨[.pseudo (.nthChild ⟨0, 12⟩)], []⟩] ∧
    (∀ nth, ¬Formula "1 2".toList nth) ∧ ¬ReadAs "1 2" (Formula "1 2".toList) := by
  have hparse : parse ":nth-child(1 2)" = .ok [⟨[.pseudo (.nthChild ⟨0, 12⟩)], []⟩] := by
    decide +kernel
  have hnone : ∀ nth, ¬Formula "1 2".toList nth := by
    intro nth h
    rcases (formula_iff_seamless h.of_unspaced).1 h ['1'] ' ' ['2'] (by decide) (by decide) with
      hbefore | hafter | ⟨step, sign, hletter⟩
    · exact absurd hbefore (by decide)
    · exact absurd hafter (by decide)
    · have hmem : 'n' ∈ unspaced ['1'] := hletter ▸ List.mem_append_right step (.head _)
      exact absurd hmem (by decide)
  exact ⟨hparse, hnone, fun h => hnone _ ((h.parse ⟨0, 12⟩).1 hparse)⟩

end Selector.Nth

end UniqueSelector
