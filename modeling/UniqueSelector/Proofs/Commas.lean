import UniqueSelector.Proofs.Answers
import UniqueSelector.Proofs.PrintedBack

/-!
# Commas — a list of selectors with another one behind it

What is read up to the end of a text is read in the same way up to a comma: no reader looks beyond a
comma that it does not take, and the end of the text is taken for nothing else. The one exception is
a backslash at the end, which would take the comma for its own; but nothing that is read leaves a
backslash. So two lists with a comma between them are read as one list, and a query for it finds
what either finds.
-/

namespace UniqueSelector

namespace Selector

/-! ## 1. Backslashes at the end -/

/-- A backslash at the end, with or without a hyphen: it begins no name, but with more text behind
it there is one. -/
def Hangs (cs : List Char) : Prop := cs = ['\\'] ∨ cs = ['-', '\\']

theorem not_hangs_cons {c : Char} (hslash : c ≠ '\\') (hhyphen : c ≠ '-') (cs : List Char) :
    ¬Hangs (c :: cs) := by
  rintro (h | h)
  · exact hslash (List.cons.inj h).1
  · exact hhyphen (List.cons.inj h).1

/-- What hangs begins with no blank. -/
theorem not_hangs_of_skipBlanks {cs : List Char} (h : ¬Hangs (skipBlanks cs)) : ¬Hangs cs := by
  rintro (rfl | rfl)
  · exact h (.inl rfl)
  · exact h (.inr rfl)

theorem not_hangs_of_startsName {cs : List Char} (h : startsName cs = true) : ¬Hangs cs := by
  rintro (rfl | rfl) <;> cases h

theorem startsName_of_ne_hyphen {c : Char} (hc : c ≠ '-') (cs : List Char) :
    startsName (c :: cs) = (isNameStart c || (c == '\\' && escapes cs)) := by
  rw [startsName]
  exact fun _ _ h _ => hc h

namespace Reading

/-- Whatever the first reading yields of `cs`, unless something hangs in what it leaves, the second
one yields of the text that goes on with `tail`; and then nothing hangs in `cs`. -/
def Carries (cs tail : List Char) (r r' : Reading α) : Prop :=
  ∀ value rest ws, r = .ok value rest ws → ¬Hangs rest →
    ¬Hangs cs ∧ r' = .ok value (rest ++ tail) ws

section carries

variable {cs tail : List Char} {r r' : Reading α}

theorem carries_fault {f : Fault} {ws : List Warning} :
    (fault f ws : Reading α).Carries cs tail r' := by
  intro value rest ws h
  cases h

theorem carries_fail {f : Fault} : (fail f : Reading α).Carries cs tail r' := carries_fault

theorem carries_ok {value : α} {rest : List Char} {ws : List Warning}
    (h : ¬Hangs rest → ¬Hangs cs) :
    (ok value rest ws).Carries cs tail (ok value (rest ++ tail) ws) := by
  intro value' rest' ws' heq hrest
  cases heq
  exact ⟨h hrest, rfl⟩

theorem carries_pure {value : α} {rest : List Char} (h : ¬Hangs rest → ¬Hangs cs) :
    (pure value rest).Carries cs tail (pure value (rest ++ tail)) := carries_ok h

theorem Carries.imp {cs' : List Char} (h : r.Carries cs tail r') (hcs : ¬Hangs cs → ¬Hangs cs') :
    r.Carries cs' tail r' := fun value rest ws heq hrest => (h value rest ws heq hrest).imp_left hcs

/-- Blanks in front may be skipped. -/
theorem Carries.of_skipBlanks (h : r.Carries (skipBlanks cs) tail r') : r.Carries cs tail r' :=
  h.imp not_hangs_of_skipBlanks

theorem Carries.bind {next next' : α → List Char → Reading β} (h : r.Carries cs tail r')
    (hnext : ∀ value rest ws, r = .ok value rest ws →
      (next value rest).Carries rest tail (next' value (rest ++ tail))) :
    (r.bind next).Carries cs tail (r'.bind next') := by
  intro value rest ws heq hrest
  cases r with
  | fault f ws => cases heq
  | ok first middle ws₁ =>
    rw [Reading.bind] at heq
    cases hsecond : next first middle with
    | fault f ws => rw [hsecond] at heq; cases heq
    | ok value' rest' ws₂ =>
      rw [hsecond] at heq
      cases heq
      -- Nothing hangs at the end, so nothing hung in the middle.
      obtain ⟨hmiddle, hsecond'⟩ := hnext first middle ws₁ rfl _ _ _ hsecond hrest
      obtain ⟨hcs, hfirst'⟩ := h _ _ _ rfl hmiddle
      refine ⟨hcs, ?_⟩
      rw [hfirst', Reading.bind, hsecond']
      rfl

/-- What becomes of the value does not matter. -/
theorem Carries.map (h : r.Carries cs tail r') (f : α → β) :
    (r.bind fun value rest => pure (f value) rest).Carries cs tail
      (r'.bind fun value rest => pure (f value) rest) :=
  h.bind fun _ _ _ _ => carries_pure id

end carries

end Reading

section tail

variable {tail : List Char} (htail : Final tail)
include htail

/-! ## 2. Names and strings -/

theorem skipBlanks_append (cs : List Char) : skipBlanks (cs ++ tail) = skipBlanks cs ++ tail := by
  induction cs with
  | nil =>
    cases tail with
    | nil => rfl
    | cons c more =>
      rw [htail c rfl]
      rfl
  | cons c cs ih =>
    rw [List.cons_append, skipBlanks, List.dropWhile_cons, skipBlanks, List.dropWhile_cons]
    split
    · exact ih
    · rfl

theorem dropBlank_append (cs : List Char) : dropBlank (cs ++ tail) = dropBlank cs ++ tail := by
  cases cs with
  | nil =>
    cases tail with
    | nil => rfl
    | cons c more =>
      rw [htail c rfl]
      rfl
  | cons c cs =>
    rw [List.cons_append, dropBlank, dropBlank]
    split <;> rfl

theorem takeWhile_take_final (cs : List Char) (k : Nat) :
    ((cs ++ tail).take k).takeWhile isHexDigit = (cs.take k).takeWhile isHexDigit := by
  induction cs generalizing k with
  | nil =>
    have hmore : (([] ++ tail).take k).takeWhile isHexDigit = [] :=
      takeWhile_take_append (fun c hc => by cases hc) (Nat.zero_le k) htail.stops.noDigitFirst
    rw [hmore, List.take_nil, List.takeWhile_nil]
  | cons c cs ih =>
    cases k with
    | zero => rfl
    | succ k =>
      rw [List.cons_append, List.take_succ_cons, List.take_succ_cons, List.takeWhile_cons,
        List.takeWhile_cons, ih]

/-- The digits of a number end at the comma. -/
theorem readEscape_final (c : Char) (cs : List Char) :
    readEscape (c :: cs ++ tail) =
      ((readEscape (c :: cs)).1, (readEscape (c :: cs)).2 ++ tail) := by
  rw [List.cons_append, readEscape, readEscape]
  split
  · have hlength : ((cs.take 5).takeWhile isHexDigit).length ≤ cs.length :=
      ((List.takeWhile_prefix _).length_le).trans (List.length_take_le' 5 cs)
    simp only [takeWhile_take_final htail, List.drop_append_of_le_length hlength,
      dropBlank_append htail]
  · rfl

theorem readName_final {cs : List Char} (h : ¬Hangs (readName cs).2) :
    readName (cs ++ tail) = ((readName cs).1, (readName cs).2 ++ tail) := by
  fun_induction readName cs with
  | case1 => exact htail.stops.readName
  | case2 c cs hc r ih => rw [List.cons_append, readName_cons hc, ih h]
  | case3 c hc hslash =>
    -- The backslash at the end is what hangs.
    rw [beq_iff_eq] at hslash
    exact absurd (.inl (by rw [hslash])) h
  | case4 c hc hslash d ds hbreak =>
    rw [List.cons_append, List.cons_append, readName.eq_def]
    simp only [hc, hslash, hbreak, Bool.false_eq_true, if_false, if_true]
  | case5 c hc hslash d ds hbreak e r ih =>
    rw [beq_iff_eq] at hslash
    rw [hslash, List.cons_append, List.cons_append, readName_slash (by simpa using hbreak),
      ← List.cons_append, readEscape_final htail, ih h]
  | case6 c cs hc hslash =>
    apply readName_stop
    intro d hd
    cases hd
    exact ⟨by simpa using hc, by simpa using hslash⟩

theorem startsName_final {cs : List Char} (h : ¬Hangs cs) :
    startsName (cs ++ tail) = startsName cs := by
  have hescapes : ∀ (c : Char) (ds : List Char), (c = '\\' → ds ≠ []) →
      (c == '\\' && escapes (ds ++ tail)) = (c == '\\' && escapes ds) := by
    intro c ds hds
    cases ds with
    | nil =>
      have hslash : (c == '\\') = false := beq_eq_false_iff_ne.2 fun hc => hds hc rfl
      rw [hslash, Bool.false_and, Bool.false_and]
    | cons d ds => rfl
  have hcomma : tail = [] ∨ ∃ more, tail = ',' :: more := by
    cases tail with
    | nil => exact .inl rfl
    | cons c more => exact .inr ⟨more, by rw [htail c rfl]⟩
  cases cs with
  | nil => rcases hcomma with rfl | ⟨more, rfl⟩ <;> rfl
  | cons c cs =>
    by_cases hc : c = '-'
    · subst hc
      cases cs with
      | nil => rcases hcomma with rfl | ⟨more, rfl⟩ <;> rfl
      | cons d ds =>
        -- Behind the hyphen only the backslash that hangs needs what follows.
        show (isNameStart d || d == '-' || (d == '\\' && escapes (ds ++ tail))) = _
        rw [hescapes d ds]
        · rfl
        · rintro rfl rfl
          exact h (.inr rfl)
    · rw [List.cons_append, startsName_of_ne_hyphen hc, startsName_of_ne_hyphen hc, hescapes c cs]
      rintro rfl rfl
      exact h (.inl rfl)

theorem readString_final {quote : Char} {cs value rest : List Char}
    (h : readString quote cs = some (value, rest)) :
    readString quote (cs ++ tail) = some (value, rest ++ tail) := by
  fun_induction readString quote cs generalizing value rest with
  | case1 => cases h
  | case2 c cs hquote =>
    cases h
    rw [List.cons_append, readString.eq_def]
    simp only [hquote, if_true]
  | case3 => cases h
  | case4 => cases h
  | case5 c hquote hbreak hslash d ds hline ih =>
    rw [List.cons_append, List.cons_append, readString.eq_def]
    simp only [hquote, hbreak, hslash, hline, Bool.false_eq_true, if_false, if_true]
    exact ih h
  | case6 c hquote hbreak hslash d ds hline e =>
    rename_i ih
    obtain ⟨⟨v, r⟩, hr, heq⟩ := Option.map_eq_some_iff.1 h
    cases heq
    rw [List.cons_append, List.cons_append, readString.eq_def]
    simp only [hquote, hbreak, hslash, hline, Bool.false_eq_true, if_false, if_true]
    rw [← List.cons_append, readEscape_final htail, ih hr]
    rfl
  | case7 c cs hquote hbreak hslash ih =>
    obtain ⟨⟨v, r⟩, hr, heq⟩ := Option.map_eq_some_iff.1 h
    cases heq
    rw [List.cons_append, readString.eq_def]
    simp only [hquote, hbreak, hslash, Bool.false_eq_true, if_false]
    rw [ih hr]
    rfl

omit htail in
theorem readParenthesized_append_of_some {depth : Nat} {cs argument rest : List Char}
    (h : readParenthesized depth cs = some (argument, rest)) :
    readParenthesized depth (cs ++ tail) = some (argument, rest ++ tail) := by
  fun_induction readParenthesized depth cs generalizing argument rest with
  | case1 => cases h
  | case2 c cs hclose =>
    cases h
    rw [List.cons_append, readParenthesized.eq_def]
    simp only [hclose, if_true]
  | case3 c cs hclose depth ih =>
    obtain ⟨⟨a, r⟩, hr, heq⟩ := Option.map_eq_some_iff.1 h
    cases heq
    rw [List.cons_append, readParenthesized.eq_def]
    simp only [hclose, if_true]
    rw [ih hr]
    rfl
  | case4 depth c cs hclose ih =>
    obtain ⟨⟨a, r⟩, hr, heq⟩ := Option.map_eq_some_iff.1 h
    cases heq
    rw [List.cons_append, readParenthesized.eq_def]
    simp only [hclose, Bool.false_eq_true, if_false]
    rw [ih hr]
    rfl

/-! ## 3. Readers -/

section readers

variable {total total' : Nat} {cs : List Char}

theorem carries_expectName :
    (expectName total cs).Carries cs tail (expectName total' (cs ++ tail)) := by
  rw [expectName]
  split
  · next hstart =>
    intro value rest ws heq hrest
    cases heq
    have hcs := not_hangs_of_startsName hstart
    refine ⟨hcs, ?_⟩
    rw [expectName, if_pos ((startsName_final htail hcs).trans hstart), readName_final htail hrest]
    rfl
  · exact Reading.carries_fail

omit htail in
theorem carries_expect {c : Char} (hslash : c ≠ '\\') (hhyphen : c ≠ '-') :
    (expect total c cs).Carries cs tail (expect total' c (cs ++ tail)) := by
  cases cs with
  | nil => exact Reading.carries_fail
  | cons d ds =>
    rw [List.cons_append, expect, expect]
    split
    · next hd =>
      rw [beq_iff_eq] at hd
      exact Reading.carries_pure fun _ => not_hangs_cons (hd ▸ hslash) (hd ▸ hhyphen) ds
    · exact Reading.carries_fail

omit htail in
theorem carries_readOperator :
    (readOperator total cs).Carries cs tail (readOperator total' (cs ++ tail)) := by
  cases cs with
  | nil => exact Reading.carries_fail
  | cons c cs =>
    rw [List.cons_append, readOperator, readOperator]
    have hcs : isNameChar c = false → c ≠ '\\' → ¬Hangs (c :: cs) := fun hchar hslash =>
      not_hangs_cons hslash (fun hhyphen => by rw [hhyphen] at hchar; cases hchar) cs
    split
    · next hc =>
      rw [beq_iff_eq] at hc
      exact Reading.carries_pure fun _ => hcs (by rw [hc]; rfl) (by rw [hc]; decide)
    · split
      · next hc =>
        rw [beq_iff_eq] at hc
        exact Reading.carries_pure fun _ => hcs (by rw [hc]; rfl) (by rw [hc]; decide)
      · cases hop : operatorOf? c with
        | none => exact Reading.carries_fail
        | some op =>
          have hslash : c ≠ '\\' := by
            rintro rfl
            cases hop
          have hhyphen : c ≠ '-' := by
            rintro rfl
            cases hop
          refine ((carries_expect (by decide) (by decide)).bind fun _ rest _ _ => ?_).imp
            fun _ => not_hangs_cons hslash hhyphen cs
          exact Reading.carries_pure id

theorem carries_readQuoted (quote : Quote) :
    (readQuoted total quote cs).Carries (quote.char :: cs) tail
      (readQuoted total' quote (cs ++ tail)) := by
  rw [readQuoted]
  split
  · next value rest hread =>
    rw [readQuoted, readString_final htail hread]
    apply Reading.carries_pure
    intro _
    cases quote <;> exact not_hangs_cons (by decide) (by decide) cs
  · exact Reading.carries_fail

theorem carries_readValue :
    (readValue total cs).Carries cs tail (readValue total' (cs ++ tail)) := by
  cases cs with
  | nil => exact Reading.carries_fail
  | cons c cs =>
    by_cases hdouble : c = '"'
    · rw [hdouble]
      exact carries_readQuoted htail .double
    · by_cases hsingle : c = '\''
      · rw [hsingle]
        exact carries_readQuoted htail .single
      · have hvalue : ∀ total ds, readValue total (c :: ds) = expectName total (c :: ds) := by
          intro total ds
          rw [readValue]
          · exact fun _ h => hdouble (List.cons.inj h).1
          · exact fun _ h => hsingle (List.cons.inj h).1
        rw [List.cons_append, hvalue, hvalue]
        exact carries_expectName htail

theorem carries_readAttribute :
    (readAttribute total cs).Carries cs tail (readAttribute total' (cs ++ tail)) := by
  rw [readAttribute, readAttribute, skipBlanks_append htail]
  refine ((carries_expectName htail).bind fun name rest _ _ => ?_).of_skipBlanks
  rw [skipBlanks_append htail]
  refine (carries_readOperator.bind fun op rest _ _ => ?_).of_skipBlanks
  cases op with
  | none => exact Reading.carries_pure id
  | some op =>
    simp only
    rw [skipBlanks_append htail]
    refine ((carries_readValue htail).bind fun value rest _ _ => ?_).of_skipBlanks
    rw [skipBlanks_append htail]
    refine ((carries_expect (by decide) (by decide)).bind fun _ rest _ _ => ?_).of_skipBlanks
    exact Reading.carries_pure id

theorem carries_readArgument : (readArgument cs).Carries cs tail (readArgument (cs ++ tail)) := by
  cases cs with
  | nil =>
    have hargument : readArgument tail = .pure none tail := by
      cases tail with
      | nil => rfl
      | cons c more =>
        rw [htail c rfl]
        rfl
    rw [List.nil_append, hargument]
    exact Reading.carries_pure id
  | cons c cs =>
    by_cases hopen : c = '('
    · subst hopen
      rw [List.cons_append, readArgument, readArgument]
      split
      · next argument rest hread =>
        rw [readParenthesized_append_of_some hread]
        exact Reading.carries_pure fun _ => not_hangs_cons (by decide) (by decide) cs
      · exact Reading.carries_fail
    · have hargument : ∀ ds, readArgument (c :: ds) = .pure none (c :: ds) := by
        intro ds
        rw [readArgument]
        exact fun _ h => hopen (List.cons.inj h).1
      rw [List.cons_append, hargument, hargument]
      exact Reading.carries_pure id

theorem carries_readPseudoClass :
    (readPseudoClass total cs).Carries cs tail (readPseudoClass total' (cs ++ tail)) := by
  refine (carries_expectName htail).bind fun name rest _ _ => ?_
  refine (carries_readArgument htail).bind fun argument rest _ _ => ?_
  split
  · exact Reading.carries_fail
  · exact Reading.carries_pure id
  · exact Reading.carries_ok id

theorem carries_readPseudoElement :
    (readPseudoElement total cs).Carries cs tail (readPseudoElement total' (cs ++ tail)) := by
  refine (carries_expectName htail).bind fun name rest _ _ => ?_
  exact (carries_readArgument htail).bind fun _ rest _ _ => Reading.carries_pure id

theorem carries_readPseudo :
    (readPseudo total cs).Carries cs tail (readPseudo total' (cs ++ tail)) := by
  cases cs with
  | nil => exact Reading.carries_fail
  | cons c cs =>
    by_cases hcolon : c = ':'
    · rw [hcolon]
      exact (carries_readPseudoElement htail).imp fun _ => not_hangs_cons (by decide) (by decide) cs
    · have hpseudo : ∀ total ds, readPseudo total (c :: ds) = readPseudoClass total (c :: ds) := by
        intro total ds
        rw [readPseudo]
        exact fun _ h => hcolon (List.cons.inj h).1
      rw [List.cons_append, hpseudo, hpseudo]
      exact carries_readPseudoClass htail

theorem readSimple_none_final (h : readSimple total cs = none) :
    readSimple total' (cs ++ tail) = none := by
  cases cs with
  | nil => exact htail.stops.readSimple total'
  | cons c cs =>
    have hc := readSimple_eq_none_iff.1 h
    exact readSimple_eq_none_iff.2 hc

theorem carries_readSimple {r : Reading Simple} (h : readSimple total cs = some r) :
    ∃ r', readSimple total' (cs ++ tail) = some r' ∧ r.Carries cs tail r' := by
  have hcs : ∀ {c : Char} (ds : List Char), c ≠ '\\' → c ≠ '-' → ¬Hangs ds → ¬Hangs (c :: ds) :=
    fun ds hslash hhyphen _ => not_hangs_cons hslash hhyphen ds
  obtain ⟨ds, ⟨rfl, rfl⟩ | ⟨rfl, rfl⟩ | ⟨rfl, rfl⟩ | ⟨rfl, rfl⟩⟩ := exists_of_readSimple h
  · exact ⟨_, rfl, ((carries_expectName htail).map Simple.id).imp (hcs ds (by decide) (by decide))⟩
  · exact ⟨_, rfl,
      ((carries_expectName htail).map Simple.class).imp (hcs ds (by decide) (by decide))⟩
  · exact ⟨_, rfl,
      ((carries_readAttribute htail).map Simple.attribute).imp (hcs ds (by decide) (by decide))⟩
  · exact ⟨_, rfl, (carries_readPseudo htail).imp (hcs ds (by decide) (by decide))⟩

/-! ## 4. Compounds and chains -/

theorem carries_readSimples :
    (readSimples total cs).Carries cs tail (readSimples total' (cs ++ tail)) := by
  fun_induction readSimples total cs with
  | case1 cs taken =>
    rw [readSimples_of_none (readSimple_none_final htail taken)]
    exact Reading.carries_pure id
  | case2 => exact Reading.carries_fault
  | case3 cs s rest ws taken ih =>
    obtain ⟨r', hr', hcarries⟩ := carries_readSimple htail taken
    rw [readSimples_of_some hr']
    show ((Reading.ok s rest ws).bind fun s rest =>
      (readSimples total rest).bind fun ss rest => .pure (s :: ss) rest).Carries _ _ _
    refine hcarries.bind fun value middle vs heq => ?_
    cases heq
    exact ih.map _

theorem readHead_final (h : ¬Hangs (readHead cs).2) :
    ¬Hangs cs ∧ readHead (cs ++ tail) = ((readHead cs).1, (readHead cs).2 ++ tail) := by
  by_cases hstar : ∃ ds, cs = '*' :: ds
  · obtain ⟨ds, rfl⟩ := hstar
    exact ⟨not_hangs_cons (by decide) (by decide) ds, rfl⟩
  · have hhead : ∀ ds, (∀ es, ds ≠ '*' :: es) → readHead ds =
        if startsName ds then ([.type (String.ofList (readName ds).1)], (readName ds).2)
        else ([], ds) := by
      intro ds hds
      rw [readHead]
      exact fun es h => hds es h
    have hcs : ∀ es, cs ≠ '*' :: es := fun es h => hstar ⟨es, h⟩
    have hlonger : ∀ es, cs ++ tail ≠ '*' :: es := by
      intro es heq
      cases cs with
      | nil =>
        have hcomma : '*' = ',' := htail '*' (by rw [show tail = '*' :: es from heq]; rfl)
        exact absurd hcomma (by decide)
      | cons c cs => exact hcs cs (by rw [(List.cons.inj heq).1])
    rw [hhead cs hcs] at h ⊢
    rw [hhead _ hlonger]
    split at h
    · next hstart =>
      have hhangs := not_hangs_of_startsName hstart
      rw [startsName_final htail hhangs, if_pos hstart, if_pos hstart, readName_final htail h]
      exact ⟨hhangs, rfl⟩
    · next hstart =>
      rw [startsName_final htail h, if_neg hstart, if_neg hstart]
      exact ⟨h, rfl⟩

theorem carries_readCompound :
    (readCompound total cs).Carries cs tail (readCompound total' (cs ++ tail)) := by
  intro value rest ws heq hrest
  -- The head is no reading, so the law is stated first for what stands behind it.
  have hsimples : (readCompound total cs).Carries (readHead cs).2 tail
      ((readSimples total' ((readHead cs).2 ++ tail)).bind fun ss rest =>
        if ((readHead cs).1 ++ ss).isEmpty then .fail (faultAt total' rest)
        else .pure ((readHead cs).1 ++ ss) rest) := by
    refine (carries_readSimples htail).bind fun ss rest _ _ => ?_
    split
    · exact Reading.carries_fail
    · exact Reading.carries_pure id
  obtain ⟨hhangs, hread⟩ := hsimples value rest ws heq hrest
  obtain ⟨hcs, hhead⟩ := readHead_final htail hhangs
  refine ⟨hcs, ?_⟩
  rw [readCompound, hhead]
  exact hread

theorem carries_readCombinator :
    (readCombinator total cs).Carries cs tail (readCombinator total' (cs ++ tail)) := by
  apply Reading.Carries.of_skipBlanks
  rw [readCombinator, readCombinator, skipBlanks_append htail]
  cases skipBlanks cs with
  | nil =>
    cases tail with
    | nil => exact Reading.carries_pure id
    | cons c more =>
      rw [htail c rfl]
      exact Reading.carries_pure id
  | cons c rest =>
    simp only [List.cons_append]
    split
    · exact Reading.carries_pure id
    · split
      · next k hk =>
        rw [skipBlanks_append htail]
        refine Reading.carries_pure fun _ => not_hangs_cons ?_ ?_ rest
        · rintro rfl
          cases hk
        · rintro rfl
          cases hk
      · -- With the comma and what is behind it both texts are longer by the same.
        have hlonger : (c :: (rest ++ tail)).length < (cs ++ tail).length ↔
            (c :: rest).length < cs.length := by
          simp only [List.length_cons, List.length_append]
          omega
        rw [if_congr hlonger rfl rfl]
        split
        · exact Reading.carries_pure id
        · exact Reading.carries_fail

theorem carries_readOperand :
    (readOperand total cs).Carries cs tail (readOperand total' (cs ++ tail)) := by
  cases cs with
  | nil => exact Reading.carries_fail
  | cons c cs =>
    rw [List.cons_append, readOperand, readOperand]
    split
    · exact Reading.carries_fail
    · exact carries_readCompound htail

theorem carries_readLink : (readLink total cs).Carries cs tail (readLink total' (cs ++ tail)) := by
  refine (carries_readCombinator htail).bind fun k rest _ _ => ?_
  cases k with
  | none => exact Reading.carries_pure id
  | some k => exact (carries_readOperand htail).map _

theorem carries_readChain (cs : List Char) :
    (readChain total cs).Carries cs tail (readChain total' (cs ++ tail)) := by
  rw [readChain_eq total cs, readChain_eq total' (cs ++ tail)]
  refine (carries_readLink htail).bind fun link rest ws hlink => ?_
  cases link with
  | none => exact Reading.carries_pure id
  | some link => exact (carries_readChain rest).map _
termination_by cs.length
decreasing_by exact readLink_length_lt hlink

theorem carries_readComplex :
    (readComplex total cs).Carries cs tail (readComplex total' (cs ++ tail)) := by
  apply Reading.Carries.of_skipBlanks
  unfold readComplex
  simp only [skipBlanks_append htail]
  cases skipBlanks cs with
  | nil => exact Reading.carries_fail
  | cons c ds =>
    simp only [List.cons_append, List.isEmpty_cons, List.head?_cons, Bool.false_or]
    split
    · exact Reading.carries_fail
    · refine (carries_readCompound htail).bind fun first rest _ _ => ?_
      exact (carries_readChain htail rest).map _

/-! ## 5. Lists -/

/-- The selectors behind a comma; without a comma there are none. -/
def readFurther (total : Nat) : List Char → Reading Selectors
  | [] => .pure [] []
  | _ :: more => readSelectors total more

/-- The list of a text is the beginning of the list of every longer text that goes on with
a comma. -/
theorem readSelectors_append {l : Selectors} {rest : List Char} {ws : List Warning}
    (h : readSelectors total cs = .ok l rest ws) :
    readSelectors total' (cs ++ tail) =
      ((readFurther total' tail).bind fun more rest => .pure (l ++ more) rest).after ws := by
  have hcarries : ∀ ds, (readComplex total ds).Carries ds tail (readComplex total' (ds ++ tail)) :=
    fun _ => carries_readComplex htail
  fun_induction readSelectors total cs generalizing l rest ws with
  | case1 => cases h
  | case2 cs s vs taken =>
    cases h
    obtain ⟨-, hread⟩ := hcarries _ _ _ _ taken (by rintro (h | h) <;> cases h)
    cases tail with
    | nil =>
      rw [readSelectors_of_end hread, readFurther, Reading.pure_bind]
      simp [Reading.pure, Reading.after]
    | cons c more =>
      rw [htail c rfl] at hread ⊢
      exact readSelectors_of_comma hread
  | case3 cs s c more vs taken hcomma ih =>
    rw [beq_iff_eq] at hcomma
    subst hcomma
    obtain ⟨-, hread⟩ := hcarries _ _ _ _ taken (not_hangs_cons (by decide) (by decide) more)
    rw [List.cons_append] at hread
    cases hmore : readSelectors total more with
    | fault f us =>
      rw [hmore] at h
      cases h
    | ok l' rest' us =>
      rw [hmore] at h
      cases h
      rw [readSelectors_of_comma hread, ih hmore, Reading.after_bind, Reading.bind_assoc,
        Reading.after_after]
      simp
  | case4 => cases h

end readers

end tail

/-- The text behind the comma starts afresh, only that there the positions in faults are counted in
a longer text. -/
theorem parse_append_comma {s₁ s₂ : String} {l₁ l₂ : Selectors} (h₁ : parse s₁ = .ok l₁)
    (h₂ : parse s₂ = .ok l₂) :
    parse (s₁ ++ "," ++ s₂) = .ok (l₁ ++ l₂) := by
  obtain ⟨rest₁, ws₁, h₁⟩ := parse_eq_ok.1 h₁
  obtain ⟨rest₂, ws₂, h₂⟩ := parse_eq_ok.1 h₂
  have hend : Final [] := fun c hc => by cases hc
  have hcomma : Final (',' :: s₂.toList) := by
    intro c hc
    cases hc
    rfl
  have htext : (s₁ ++ "," ++ s₂).toList = s₁.toList ++ ',' :: s₂.toList := by
    rw [String.toList_append, String.toList_append, List.append_assoc]
    rfl
  -- With nothing behind it, the second list does not depend on the length that positions are
  -- counted in.
  have hsecond : ∀ total, ∃ rest ws, readSelectors total s₂.toList = .ok l₂ rest ws := by
    intro total
    have hread : readSelectors total (s₂.toList ++ []) = _ := readSelectors_append hend h₂
    rw [List.append_nil, readFurther, Reading.pure_bind, List.append_nil] at hread
    exact ⟨_, _, hread⟩
  obtain ⟨rest, ws, hsecond⟩ := hsecond (s₁ ++ "," ++ s₂).toList.length
  refine parse_eq_ok.2 ⟨rest, ws₁ ++ ws, ?_⟩
  rw [htext] at hsecond ⊢
  rw [readSelectors_append hcomma h₁, readFurther, hsecond]
  simp [Reading.bind, Reading.pure, Reading.after]

end Selector

namespace Document

open Selector

theorem queryAll_of_not_scope {t : Document} {selector : String} {scope : NodeId} {l : Selectors}
    (hparse : parse selector = .ok l) (hscope : ¬(scope = root ∨ t.isElement scope = true)) :
    t.queryAll selector scope = .error (.invalidScope scope) := by
  rw [queryAll, prepare, hparse]
  show (if scope = root ∨ t.isElement scope = true then _ else _ : Except _ _).map _ = _
  rw [if_neg hscope]
  rfl

/-- **Two lists with a comma between them are one list**, and a query for it gives what either
gives, in tree order and each once; where the scope is not allowed, all three queries say so. -/
theorem comma_joins {s₁ s₂ : String} {l₁ l₂ : Selectors} (h₁ : parse s₁ = .ok l₁)
    (h₂ : parse s₂ = .ok l₂) :
    parse (s₁ ++ "," ++ s₂) = .ok (l₁ ++ l₂) ∧ ∀ (t : Document) (scope : NodeId),
      (scope = root ∨ t.isElement scope = true → ∃ ids₁ ids₂ ids, t.queryAll s₁ scope = .ok ids₁ ∧
        t.queryAll s₂ scope = .ok ids₂ ∧ t.queryAll (s₁ ++ "," ++ s₂) scope = .ok ids ∧
        (∀ id, id ∈ ids ↔ id ∈ ids₁ ∨ id ∈ ids₂) ∧ ids.Sublist (t.descendants scope) ∧
        (t.WellFormed → ids.Pairwise t.Precedes ∧ ids.Nodup)) ∧
      (¬(scope = root ∨ t.isElement scope = true) → ∀ s ∈ [s₁, s₂, s₁ ++ "," ++ s₂],
        t.queryAll s scope = .error (.invalidScope scope)) := by
  have hjoined := parse_append_comma h₁ h₂
  refine ⟨hjoined, fun t scope => ⟨fun hscope => ?_, fun hscope s hs => ?_⟩⟩
  · refine ⟨_, _, _, queryAll_of_parse h₁ hscope, queryAll_of_parse h₂ hscope,
      queryAll_of_parse hjoined hscope, fun id => ?_, List.filter_sublist, fun h => ?_⟩
    · simp only [List.mem_filter, Selectors.matches, List.any_append, Bool.or_eq_true,
        ← and_or_left]
    · have horder := (h.pairwise_precedes_descendants scope).filter ((l₁ ++ l₂).matches t)
      exact ⟨horder, h.nodup_of_pairwise_precedes horder⟩
  · simp only [List.mem_cons, List.not_mem_nil, or_false] at hs
    rcases hs with rfl | rfl | rfl
    · exact queryAll_of_not_scope h₁ hscope
    · exact queryAll_of_not_scope h₂ hscope
    · exact queryAll_of_not_scope hjoined hscope

/-- The number at the end of the first list could go on, and a blank behind it would belong
to it. -/
theorem comma_joins_number :
    let s₁ := "p > .\\e9"
    let s₂ := " b "
    let l₁ : Selectors := [⟨[.class "é"], [(.child, [.type "p"])]⟩]
    let l₂ : Selectors := [⟨[.type "b"], []⟩]
    (parse s₁ = .ok l₁ ∧ parse s₂ = .ok l₂) ∧
      parse (s₁ ++ "," ++ s₂) = .ok (l₁ ++ l₂) ∧ ∀ (t : Document) (scope : NodeId),
        (scope = root ∨ t.isElement scope = true → ∃ ids₁ ids₂ ids, t.queryAll s₁ scope = .ok ids₁ ∧
          t.queryAll s₂ scope = .ok ids₂ ∧ t.queryAll (s₁ ++ "," ++ s₂) scope = .ok ids ∧
          (∀ id, id ∈ ids ↔ id ∈ ids₁ ∨ id ∈ ids₂) ∧ ids.Sublist (t.descendants scope) ∧
          (t.WellFormed → ids.Pairwise t.Precedes ∧ ids.Nodup)) ∧
        (¬(scope = root ∨ t.isElement scope = true) → ∀ s ∈ [s₁, s₂, s₁ ++ "," ++ s₂],
          t.queryAll s scope = .error (.invalidScope scope)) := by
  intro s₁ s₂ l₁ l₂
  have h₁ : parse s₁ = .ok l₁ := by decide +kernel
  have h₂ : parse s₂ = .ok l₂ := by decide +kernel
  exact ⟨⟨h₁, h₂⟩, comma_joins h₁ h₂⟩

end Document

end UniqueSelector
