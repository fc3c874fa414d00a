import UniqueSelector.Proofs.Fragments

/-!
# Joints — two fragments with a combinator between them

Joints are read back as the combinators that they write, except for one: where a fragment breaks off
with a number and only a blank follows, the number takes the blank for its own end, and the two
fragments run together.
-/

namespace UniqueSelector

open Selector

/-! ## 1. Chains -/

namespace Selector

/-- More compounds outward. -/
def Complex.beyond (s : Complex) (outer : List (Combinator × Compound)) : Complex :=
  ⟨s.subject, s.chain ++ outer⟩

theorem Complex.beyond_nil (s : Complex) : s.beyond [] = s := by
  rw [beyond, List.append_nil]

theorem Complex.beyond_beyond (s : Complex) (inner outer : List (Combinator × Compound)) :
    (s.beyond inner).beyond outer = s.beyond (inner ++ outer) := by
  rw [beyond, beyond, beyond, List.append_assoc]

theorem Complex.beyond_inj {s s' : Complex} (outer : List (Combinator × Compound)) :
    s.beyond outer = s'.beyond outer ↔ s = s' := by
  obtain ⟨subject, chain⟩ := s
  obtain ⟨subject', chain'⟩ := s'
  simp [beyond]

theorem Complex.foldl_extend (links : List (Combinator × Compound)) (c : Compound)
    (outer : List (Combinator × Compound)) :
    links.foldl Complex.extend ⟨c, outer⟩ = (Complex.ofLinks c links).beyond outer := by
  -- Each link moves outward what was the subject so far, whatever lies beyond it already.
  induction links generalizing c outer with
  | nil => rfl
  | cons link links ih =>
    have hleft := ih link.2 ((link.1, c) :: outer)
    have hright := ih link.2 [(link.1, c)]
    show links.foldl Complex.extend ⟨link.2, (link.1, c) :: outer⟩ =
      (links.foldl Complex.extend ⟨link.2, [(link.1, c)]⟩).beyond outer
    rw [hleft, hright, beyond_beyond, List.singleton_append]

/-- The first compound from the left is the outermost one. -/
theorem Complex.ofLinks_cons (first : Compound) (k : Combinator) (c : Compound)
    (links : List (Combinator × Compound)) :
    Complex.ofLinks first ((k, c) :: links) = (Complex.ofLinks c links).beyond [(k, first)] :=
  foldl_extend links c [(k, first)]

theorem Complex.eq_of_ofLinks_eq_beyond {first c : Compound} {links : List (Combinator × Compound)}
    {s : Complex} {k : Combinator} (h : Complex.ofLinks first links = s.beyond [(k, c)]) :
    first = c := by
  have hchain := congrArg Complex.chain h
  cases links with
  | nil => exact absurd hchain.symm (List.append_ne_nil_of_right_ne_nil _ (List.cons_ne_nil _ _))
  | cons link links =>
    rw [ofLinks_cons] at hchain
    have hlast := (List.append_inj' hchain rfl).2
    rw [List.cons.injEq, Prod.mk.injEq] at hlast
    exact hlast.1.2

/-! ## 2. Joints -/

theorem readChain_eq (total : Nat) (cs : List Char) :
    readChain total cs = (readLink total cs).bind fun link rest =>
      match link with
      | none => .pure [] rest
      | some link => (readChain total rest).bind fun links rest => .pure (link :: links) rest := by
  rw [readChain.eq_def]
  split
  · next h => rw [h]; rfl
  · next h =>
    rw [h]
    simp [Reading.bind, Reading.pure, Reading.after]
  · next h => rw [h]; rfl

theorem readCombinator_of_signOf? {total : Nat} {cs rest : List Char} {c : Char} {k : Combinator}
    (hskip : skipBlanks cs = c :: rest) (hsign : signOf? c = some k) :
    readCombinator total cs = .pure (some k) (skipBlanks rest) := by
  have hcomma : c ≠ ',' := by
    rintro rfl
    cases hsign
  rw [readCombinator, hskip]
  simp only [beq_iff_eq, hcomma, if_false, hsign]

theorem readCombinator_of_blanks {total : Nat} {cs rest : List Char} (hrest : Opens rest)
    (hskip : skipBlanks cs = rest) (hblank : rest.length < cs.length) :
    readCombinator total cs = .pure (some .descendant) rest := by
  obtain ⟨c, ds, rfl, -, hcomma, hsign⟩ := hrest
  rw [readCombinator, hskip]
  simp only [beq_iff_eq, hcomma, if_false, hsign, if_pos hblank]

theorem readCombinator_sign (total : Nat) (cs : List Char) :
    readCombinator total ('>' :: cs) = .pure (some .child) (skipBlanks cs) :=
  readCombinator_of_signOf? (skipBlanks_cons (by decide) cs) rfl

theorem readCombinator_child {cs : List Char} (h : Opens cs) (total : Nat) :
    readCombinator total ('>' :: ' ' :: cs) = .pure (some .child) cs := by
  rw [readCombinator_sign, skipBlanks_blank, h.skipBlanks]

theorem readCombinator_descendant {cs : List Char} (h : Opens cs) (total : Nat) :
    readCombinator total (' ' :: cs) = .pure (some .descendant) cs :=
  readCombinator_of_blanks h ((skipBlanks_blank cs).trans h.skipBlanks) (Nat.lt_succ_self _)

theorem readCombinator_blank (total : Nat) (cs : List Char) :
    readCombinator total (' ' :: '>' :: cs) = readCombinator total ('>' :: cs) := by
  rw [readCombinator, readCombinator, skipBlanks_blank, skipBlanks_cons (by decide)]
  rfl

/-- A combinator that is read, and the chain behind it. -/
theorem readChain_of_readCombinator {total : Nat} {cs middle : List Char} {k : Combinator}
    (hk : readCombinator total cs = .pure (some k) middle) (hmiddle : Opens middle) :
    readChain total cs = (readCompound total middle).bind fun c rest =>
      (readChain total rest).bind fun links rest => .pure ((k, c) :: links) rest := by
  rw [readChain_eq, readLink, hk, Reading.pure_bind]
  show (((readOperand total middle).bind _).bind _) = _
  rw [hmiddle.readOperand, Reading.bind_assoc]
  simp only [Reading.pure_bind]

/-- The compound `c` is the outermost one if the text goes on with a combinator. -/
theorem readLinked_of_readCombinator {total : Nat} {cs rest middle : List Char} {c : Compound}
    {k : Combinator} (hc : readCompound total cs = .pure c rest)
    (hk : readCombinator total rest = .pure (some k) middle) (hmiddle : Opens middle) :
    readLinked total cs = (readLinked total middle).bind fun s rest =>
      .pure (s.beyond [(k, c)]) rest := by
  rw [readLinked, hc, Reading.pure_bind, readChain_of_readCombinator hk hmiddle, readLinked]
  simp only [Reading.bind_assoc, Reading.pure_bind, Complex.ofLinks_cons]

theorem readLinked_eq_ok {total : Nat} {cs rest : List Char} {s : Complex} {ws : List Warning}
    (h : readLinked total cs = .ok s rest ws) :
    ∃ first middle links ws₁ ws₂, readCompound total cs = .ok first middle ws₁ ∧
      readChain total middle = .ok links rest ws₂ ∧ s = .ofLinks first links := by
  obtain ⟨first, middle, ws₁, _, hfirst, h⟩ := Reading.bind_eq_ok h
  obtain ⟨links, last, ws₂, _, hlinks, h⟩ := Reading.bind_eq_ok h
  cases h
  exact ⟨first, middle, links, ws₁, ws₂, hfirst, hlinks, rfl⟩

end Selector

/-! ## 3. Texts that break off with a number -/

/-- Whether a text breaks off with a backslash and digits in base sixteen, nothing behind them. -/
def breaksOff : List Char → Bool
  | [] => false
  | [_] => false
  | c :: d :: cs =>
    if c == '\\' then (isHexDigit d && cs.all isHexDigit) || breaksOff cs else breaksOff (d :: cs)

theorem breaksOff_cons {c : Char} (hc : c ≠ '\\') (cs : List Char) :
    breaksOff (c :: cs) = breaksOff cs := by
  cases cs with
  | nil => rfl
  | cons d cs => rw [breaksOff, if_neg (by simpa using hc)]

theorem breaksOff_slash (d : Char) (cs : List Char) :
    breaksOff ('\\' :: d :: cs) = ((isHexDigit d && cs.all isHexDigit) || breaksOff cs) := rfl

theorem breaksOff_append {ds : List Char} (hds : '\\' ∉ ds) (cs : List Char) :
    breaksOff (ds ++ cs) = breaksOff cs := by
  induction ds with
  | nil => rfl
  | cons d ds ih =>
    rw [List.mem_cons, not_or] at hds
    rw [List.cons_append, breaksOff_cons (Ne.symm hds.1), ih hds.2]

theorem breaksOff_concat {c : Char} (hc : isHexDigit c = false) (cs : List Char) :
    breaksOff (cs ++ [c]) = false := by
  fun_induction breaksOff cs with
  | case1 => rfl
  | case2 d =>
    by_cases hd : d = '\\'
    · rw [List.singleton_append, hd, breaksOff_slash, hc]
      rfl
    · rw [List.singleton_append, breaksOff_cons hd]
      rfl
  | case3 a d cs h ih =>
    rw [List.cons_append, List.cons_append, breaksOff, if_pos h, ih, List.all_append, List.all_cons,
      hc]
    simp
  | case4 a d cs h ih =>
    rw [List.cons_append, List.cons_append, breaksOff, if_neg h, ← List.cons_append, ih]

theorem breaksOff_spaced (cs : List Char) : breaksOff (spaced cs) = breaksOff cs := by
  rw [spaced]
  split
  · exact breaksOff_cons (by decide) cs
  · rfl

/-- On the text of pieces it is their last one that counts. -/
theorem breaksOff_written {ps : List Piece} (hps : ∀ p ∈ ps, p.Sound) :
    breaksOff (written ps) = endsInNumber ps := by
  induction ps with
  | nil => rfl
  | cons p ps ih =>
    have hp := hps p (.head ps)
    have htail : ∀ p ∈ ps, p.Sound := fun p h => hps p (.tail _ h)
    cases p with
    | plain c =>
      rw [written, breaksOff_cons hp.2, ih htail, endsInNumber_plain]
    | sign c =>
      rw [written, breaksOff_slash, hp.2, Bool.false_and, Bool.false_or, ih htail,
        endsInNumber_sign]
    | number n =>
      have hhex : ∀ c ∈ hexCapitals n, isHexDigit c = true := fun c => isHexDigit_of_mem_hexCapitals
      obtain ⟨d, ds, hds, hd⟩ := hexCapitals_eq_cons n
      rw [hds] at hhex
      have hslash : '\\' ∉ ds := fun h => absurd (hhex _ (.tail d h)) (by decide)
      have hall : ds.all isHexDigit = true := List.all_eq_true.2 fun c h => hhex c (.tail d h)
      rw [written, hds, List.cons_append, breaksOff_slash, hd, Bool.true_and, List.all_append, hall,
        Bool.true_and, breaksOff_append hslash, breaksOff_spaced, ih htail]
      cases ps with
      | nil => rfl
      | cons q qs =>
        -- What follows the digits is a blank or a character that is none.
        have hmore : (spaced (written (q :: qs))).all isHexDigit = false := by
          obtain ⟨c, cs, hwritten, -⟩ := exists_written_cons (htail q (.head qs)) qs
          rw [hwritten, spaced]
          split
          · rfl
          · next h =>
            rw [needsBlank, Bool.or_eq_true, not_or, Bool.not_eq_true] at h
            rw [List.all_cons, h.1, Bool.false_and]
        rw [hmore, Bool.false_or, endsInNumber_cons_cons]

theorem Feature.breaksOff_text (f : Feature) : breaksOff f.text = endsInNumber f.tail := by
  have hname : ∀ name, breaksOff (written (namePieces name)) = endsInNumber (namePieces name) :=
    fun name => breaksOff_written fun p hp => (inName_namePieces name p hp).1
  cases f with
  | id name => exact (breaksOff_cons (by decide) _).trans (hname name)
  | className name => exact (breaksOff_cons (by decide) _).trans (hname name)
  | tag name => exact hname name
  | any => rfl
  | attr name value =>
    -- The bracket at the end is no digit, whatever the value breaks off with.
    have htext : (attr name value).text = '[' :: (written (namePieces name) ++ '=' :: '"' ::
        (written (stringPieces .double value) ++ ['"'])) ++ [']'] := by
      simp [text]
    rw [htext]
    exact breaksOff_concat (by decide) _

theorem Fragment.breaksOff_text (f : Fragment) : breaksOff f.text = endsInNumber f.tail := by
  obtain ⟨feature, place⟩ := f
  cases place with
  | none =>
    show breaksOff (feature.text ++ []) = endsInNumber feature.tail
    rw [List.append_nil]
    exact feature.breaksOff_text
  | some i =>
    have htext : (Fragment.mk feature (some i)).text =
        (feature.text ++ ':' :: (nthChildName ++ '(' :: Nat.toDigits 10 i)) ++ [')'] := by
      simp [text, placeText]
    rw [htext]
    exact breaksOff_concat (by decide) _

/-! ## 4. Joints that stand -/

/-- What a reader leaves behind a text: a number that breaks off takes one blank. -/
def leftBehind (text rest : List Char) : List Char :=
  if breaksOff text then dropBlank rest else rest

/-- The text is read as the compound wherever a compound has to stop behind it. -/
structure Reads (text : List Char) (c : Compound) : Prop where
  opens : ∀ rest, Opens (text ++ rest)
  reads : ∀ {rest left}, Stops rest → leftBehind text rest = left → Stops left → ∀ total,
    readCompound total (text ++ rest) = .pure c left

theorem Fragment.reads {f : Fragment} (hf : f.Sound) : Reads f.text f.compound where
  opens := opens_text hf
  reads hrest hleft hstops total := by
    rw [leftBehind, breaksOff_text] at hleft
    exact readCompound_text hf hrest hleft hstops total

namespace Reads

/-- The text to the end. -/
theorem lone {text : List Char} {c : Compound} (h : Reads text c) (total : Nat) :
    readLinked total text = .pure ⟨c, []⟩ [] := by
  have hleft : leftBehind text [] = [] := by rw [leftBehind, dropBlank, ite_self]
  have hread := h.reads stops_nil hleft stops_nil total
  rw [List.append_nil] at hread
  exact readLinked_lone hread

/-- The text in front of a child. -/
theorem child {text : List Char} {c : Compound} (h : Reads text c) {cs : List Char} (hcs : Opens cs)
    (total : Nat) :
    readLinked total (text ++ ' ' :: '>' :: ' ' :: cs) =
      (readLinked total cs).bind fun s rest => .pure (s.beyond [(.child, c)]) rest := by
  have hstops : Stops (' ' :: '>' :: ' ' :: cs) := stops_cons (.inl rfl) _
  -- A number at the end takes the first blank; the sign keeps the fragments apart all the same.
  by_cases hopen : breaksOff text = true
  · have hleft : leftBehind text (' ' :: '>' :: ' ' :: cs) = '>' :: ' ' :: cs := if_pos hopen
    have hread := h.reads hstops hleft (stops_cons (.inr (.inl rfl)) _) total
    exact readLinked_of_readCombinator hread (readCombinator_child hcs total) hcs
  · have hleft : leftBehind text (' ' :: '>' :: ' ' :: cs) = ' ' :: '>' :: ' ' :: cs := if_neg hopen
    have hread := h.reads hstops hleft hstops total
    exact readLinked_of_readCombinator hread
      ((readCombinator_blank total _).trans (readCombinator_child hcs total)) hcs

/-- The text in front of a descendant, if it does not break off with a number. -/
theorem descendant {text : List Char} {c : Compound} (h : Reads text c)
    (hclosed : breaksOff text = false) {cs : List Char} (hcs : Opens cs) (total : Nat) :
    readLinked total (text ++ ' ' :: cs) =
      (readLinked total cs).bind fun s rest => .pure (s.beyond [(.descendant, c)]) rest := by
  have hstops : Stops (' ' :: cs) := stops_cons (.inl rfl) _
  have hleft : leftBehind text (' ' :: cs) = ' ' :: cs := if_neg (by simp [hclosed])
  have hread := h.reads hstops hleft hstops total
  exact readLinked_of_readCombinator hread (readCombinator_descendant hcs total) hcs

end Reads

/-! ## 5. The joint that is lost -/

namespace Selector

theorem readName_ne_nil {cs : List Char} (h : startsName cs = true) : (readName cs).1 ≠ [] := by
  cases cs with
  | nil => cases h
  | cons c cs =>
    by_cases hc : isNameChar c = true
    · rw [readName_cons hc]
      exact List.cons_ne_nil _ _
    · rcases startsName_cons h with hstart | rfl | rfl
      · exact absurd (by rw [isNameChar, hstart]; rfl) hc
      · exact absurd (by decide) hc
      · cases cs with
        | nil => cases h
        | cons d ds =>
          have hbreak : isLineBreak d = false := by
            rw [startsName, escapes] at h
            · simpa [isNameStart] using h
            · exact fun _ _ h _ => absurd h (by decide)
          rw [readName_slash hbreak]
          exact List.cons_ne_nil _ _

theorem readSimples_ne_nil {total : Nat} {cs rest : List Char} {r : Reading Simple} {ss : Compound}
    {ws : List Warning} (hr : readSimple total cs = some r)
    (h : readSimples total cs = .ok ss rest ws) :
    ss ≠ [] := by
  rw [readSimples_of_some hr] at h
  obtain ⟨s, middle, _, _, _, h⟩ := Reading.bind_eq_ok h
  obtain ⟨ss', last, _, _, _, h⟩ := Reading.bind_eq_ok h
  cases h
  exact List.cons_ne_nil _ _

theorem readChain_star (total : Nat) (cs : List Char) :
    readChain total ('*' :: cs) = .fail (faultAt total ('*' :: cs)) := by
  have hcombinator : readCombinator total ('*' :: cs) = .fail (faultAt total ('*' :: cs)) := by
    rw [readCombinator, skipBlanks_cons (by decide)]
    show (if _ then _ else _) = _
    rw [if_neg (by decide)]
    show (if _ then _ else _) = _
    rw [if_neg (Nat.lt_irrefl _)]
  rw [readChain_eq, readLink, hcombinator, Reading.fail_bind, Reading.fail_bind]

end Selector

namespace Feature

/-- A feature that is no name begins with a sign, at which a name ends. -/
theorem readName_text {f : Feature} (hf : ∀ name, f ≠ .tag name) (rest : List Char) :
    readName (f.text ++ rest) = ([], f.text ++ rest) := by
  have hsign : ∃ c cs, f.text ++ rest = c :: cs ∧ isNameChar c = false ∧ c ≠ '\\' := by
    cases f with
    | id name => exact ⟨'#', _, rfl, by decide, by decide⟩
    | className name => exact ⟨'.', _, rfl, by decide, by decide⟩
    | attr name value => exact ⟨'[', _, rfl, by decide, by decide⟩
    | tag name => exact absurd rfl (hf name)
    | any => exact ⟨'*', _, rfl, by decide, by decide⟩
  obtain ⟨c, cs, htext, hc⟩ := hsign
  rw [htext]
  exact readName_stop fun d hd => by
    cases hd
    exact hc

theorem after_of_tail_ne_nil {f : Feature} (h : f.tail ≠ []) (rest : List Char) :
    f.after rest = readName (behind f.tail rest) := by
  cases f with
  | id name => rfl
  | className name => rfl
  | tag name => rfl
  | attr name value => exact absurd rfl h
  | any => exact absurd rfl h

theorem simpleWith_ne {f : Feature} (htail : f.tail ≠ []) {more : List Char} (hmore : more ≠ []) :
    f.simpleWith more ≠ f.simple := by
  have hne : ∀ name : String, name ++ String.ofList more ≠ name ++ String.ofList [] := by
    intro name h
    rw [← String.toList_inj, String.toList_append, String.toList_append, String.toList_ofList,
      String.toList_ofList] at h
    exact hmore (List.append_cancel_left h)
  cases f with
  | id name => exact fun h => hne _ (by injection h)
  | className name => exact fun h => hne _ (by injection h)
  | tag name => exact fun h => hne _ (by injection h)
  | attr name value => exact absurd rfl htail
  | any => exact absurd rfl htail

end Feature

namespace Fragment

/-- Behind a name that was read to its end stands a sign: it adds a condition, or it is the star. -/
theorem lost_of_readName {g : Fragment} (hg : g.Sound) {total : Nat} {cs rest last : List Char}
    {links : List (Combinator × Compound)} {ws₁ ws₂ : List Warning}
    (hmore : (readName (g.text ++ cs)).1 = [])
    (hss : readSimples total (readName (g.text ++ cs)).2 = .ok [] rest ws₁)
    (hlinks : readChain total rest = .ok links last ws₂) : False := by
  obtain ⟨feature, place⟩ := g
  have htext : (Fragment.mk feature place).text ++ cs = feature.text ++ (placeText place ++ cs) :=
    List.append_assoc _ _ _
  rw [htext] at hmore hss
  have hsign : (∀ name, feature ≠ .tag name) →
      readSimples total (feature.text ++ (placeText place ++ cs)) = .ok [] rest ws₁ :=
        fun h => by rwa [Feature.readName_text h] at hss
  cases feature with
  | tag name => exact readName_ne_nil (startsName_namePieces hg.1 _) hmore
  | id name => exact readSimples_ne_nil rfl (hsign fun _ h => by cases h) rfl
  | className name => exact readSimples_ne_nil rfl (hsign fun _ h => by cases h) rfl
  | attr name value => exact readSimples_ne_nil rfl (hsign fun _ h => by cases h) rfl
  | any =>
    -- A star is left to the chain, where no combinator begins with it.
    have hstar := hsign fun _ h => by cases h
    rw [readSimples_of_none rfl] at hstar
    cases hstar
    rw [show Feature.any.text ++ (placeText place ++ cs) = '*' :: (placeText place ++ cs) from rfl,
      readChain_star] at hlinks
    cases hlinks

/-- **A number in front of a lone blank is no joint**: the outermost compound is not the one that
the fragment stands for, if anything is read at all. -/
theorem readLinked_open {f g : Fragment} (hf : f.Sound) (hopen : endsInNumber f.tail = true)
    (hg : g.Sound) {total : Nat} {cs rest : List Char} {s : Selector.Complex} {ws : List Warning}
    (h : readLinked total (f.text ++ ' ' :: (g.text ++ cs)) = .ok s rest ws) (s' : Selector.Complex)
    (k : Combinator) : s ≠ s'.beyond [(k, f.compound)] := by
  rintro rfl
  obtain ⟨feature, place⟩ := f
  cases place with
  | some i =>
    -- A place ends with its parenthesis.
    cases hopen
  | none =>
    have htail : feature.tail ≠ [] := fun h => by
      have hopen : endsInNumber feature.tail = true := hopen
      rw [h] at hopen
      cases hopen
    -- The blank is gone, and the name of `f` goes on with what it can take of `g`.
    have hbehind : behind feature.tail (' ' :: (g.text ++ cs)) = g.text ++ cs := if_pos hopen
    have hafter := Feature.after_of_tail_ne_nil htail (' ' :: (g.text ++ cs))
    rw [hbehind] at hafter
    obtain ⟨first, middle, links, _, _, hfirst, hlinks, hs⟩ := readLinked_eq_ok h
    obtain rfl := Selector.Complex.eq_of_ofLinks_eq_beyond hs.symm
    have htext : (Fragment.mk feature none).text = feature.text := List.append_nil _
    rw [htext, Feature.readCompound_text hf.1 (fun _ => noDigitFirst_cons (by decide) _),
      hafter] at hfirst
    obtain ⟨ss, last, _, _, hss, hfirst⟩ := Reading.bind_eq_ok hfirst
    rw [Reading.pure, Reading.ok.injEq] at hfirst
    obtain ⟨hcompound, rfl, -⟩ := hfirst
    have hcompound : feature.simpleWith (readName (g.text ++ cs)).1 :: ss = [feature.simple] :=
      hcompound
    rw [List.cons.injEq] at hcompound
    obtain ⟨hsimple, rfl⟩ := hcompound
    -- The condition is the one of `f` alone only if nothing of `g` was taken.
    have hmore : (readName (g.text ++ cs)).1 = [] := by
      by_contra hne
      exact Feature.simpleWith_ne htail hne hsimple
    exact lost_of_readName hg hmore hss hlinks

end Fragment

end UniqueSelector
