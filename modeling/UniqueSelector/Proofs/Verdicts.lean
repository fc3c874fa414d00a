import UniqueSelector.Proofs.Joints
import UniqueSelector.Proofs.Printing

/-!
# Verdicts — what a text is read as, or what is wrong with it

Whatever the text is, the reader comes to a list of selectors or to a fault. A list that is read has
the shape that the grammar gives it: nothing in it is empty, and types stand at the front of their
compounds. A fault that tells where or what it is about tells the truth, since each reader is given
what is left of the text, and nothing else.
-/

namespace UniqueSelector.Selector

/-! ## 1. Selectors that are read -/

def AttributeTest.name : AttributeTest → String
  | .present name | .compare name _ _ => name

/-- If the condition has a name in it, that name has at least one character. -/
def Simple.Named : Simple → Prop
  | .type name | .class name | .id name => name ≠ ""
  | .attribute test => test.name ≠ ""
  | .universal | .never | .pseudo _ => True

/-- Something is asked, no name is empty, and the type or the star comes first. -/
structure Compound.Shaped (c : Compound) : Prop where
  nonempty : c ≠ []
  named : ∀ s ∈ c, s.Named
  headed : ∀ s ∈ c.tail, ¬s.IsHead

structure Complex.Shaped (s : Complex) : Prop where
  subject : Compound.Shaped s.subject
  chain : ∀ link ∈ s.chain, Compound.Shaped link.2

structure Selectors.Shaped (l : Selectors) : Prop where
  nonempty : l ≠ []
  selectors : ∀ s ∈ l, s.Shaped

/-! ## 2. Faults that are true -/

/-- What the fault tells of the text: the character that it names stands at the place that it names,
a string begins in front of that place, or the argument stands between parentheses. -/
def Fault.TrueOf (text : List Char) : Fault → Prop
  | .unexpected found position => ∃ h : position < text.length, text[position] = found
  | .unterminatedString position => 1 ≤ position ∧ position ≤ text.length ∧
      (text[position - 1]? = some '"' ∨ text[position - 1]? = some '\'')
  | .invalidNth argument => '(' :: argument.toList ++ [')'] <:+: text
  | .empty | .unexpectedEnd => True

theorem trueOf_faultAt {text cs : List Char} (h : cs <:+ text) :
    (faultAt text.length cs).TrueOf text := by
  obtain ⟨before, rfl⟩ := h
  cases cs with
  | nil => trivial
  | cons c cs =>
    have hposition : (before ++ c :: cs).length - (c :: cs).length = before.length := by
      rw [List.length_append, Nat.add_sub_cancel]
    have hfound : (before ++ c :: cs)[before.length]? = some c := by
      rw [List.getElem?_append_right (Nat.le_refl _), Nat.sub_self]
      rfl
    rw [← hposition] at hfound
    exact List.getElem?_eq_some_iff.1 hfound

/-- A string that does not end is told by the place behind its mark. -/
theorem trueOf_unterminatedString {text cs : List Char} {quote : Quote}
    (h : quote.char :: cs <:+ text) :
    (Fault.unterminatedString (text.length - cs.length)).TrueOf text := by
  obtain ⟨before, rfl⟩ := h
  have hposition : (before ++ quote.char :: cs).length - cs.length = before.length + 1 := by
    rw [List.length_append, List.length_cons]
    omega
  have hmark : (before ++ quote.char :: cs)[before.length]? = some quote.char := by
    rw [List.getElem?_append_right (Nat.le_refl _), Nat.sub_self]
    rfl
  show 1 ≤ _ ∧ _ ≤ _ ∧ (_ ∨ _)
  rw [hposition, Nat.add_sub_cancel, hmark, List.length_append, List.length_cons]
  refine ⟨Nat.succ_pos _, by omega, ?_⟩
  cases quote with
  | double => exact .inl rfl
  | single => exact .inr rfl

/-! ## 3. Readings of a text -/

namespace Reading

/-- What was read is as `P` says and leaves an end of the text, or the fault is true of the text. -/
def Sound (text : List Char) (P : α → Prop) : Reading α → Prop
  | .ok value rest _ => P value ∧ rest <:+ text
  | .fault f _ => f.TrueOf text

variable {text : List Char} {P : α → Prop} {Q : β → Prop}

theorem sound_pure {value : α} {rest : List Char} (hvalue : P value) (hrest : rest <:+ text) :
    (pure value rest).Sound text P := ⟨hvalue, hrest⟩

theorem sound_fail {f : Fault} (h : f.TrueOf text) : (fail f : Reading α).Sound text P := h

theorem sound_after {r : Reading α} (warnings : List Warning) :
    (r.after warnings).Sound text P ↔ r.Sound text P := by
  cases r <;> exact Iff.rfl

theorem Sound.mono {Q : α → Prop} {r : Reading α} (h : r.Sound text P)
    (hPQ : ∀ value, P value → Q value) :
    r.Sound text Q := by
  cases r with
  | ok value rest warnings => exact ⟨hPQ value h.1, h.2⟩
  | fault f warnings => exact h

theorem Sound.bind {r : Reading α} {next : α → List Char → Reading β} (h : r.Sound text P)
    (hnext : ∀ value rest, P value → rest <:+ text → (next value rest).Sound text Q) :
    (r.bind next).Sound text Q := by
  cases r with
  | ok value rest warnings => exact (sound_after warnings).2 (hnext value rest h.1 h.2)
  | fault f warnings => exact h

end Reading

/-! ## 4. Names and strings -/

theorem skipBlanks_suffix (cs : List Char) : skipBlanks cs <:+ cs := List.dropWhile_suffix _

theorem dropBlank_suffix (cs : List Char) : dropBlank cs <:+ cs := by
  fun_cases dropBlank cs with
  | case1 => exact List.suffix_refl _
  | case2 c cs hblank => exact List.suffix_cons c cs
  | case3 => exact List.suffix_refl _

theorem readEscape_suffix (cs : List Char) : (readEscape cs).2 <:+ cs := by
  fun_cases readEscape cs with
  | case1 => exact List.suffix_refl _
  | case2 c cs hdigit more =>
    exact ((dropBlank_suffix _).trans (List.drop_suffix _ _)).trans (List.suffix_cons c cs)
  | case3 c cs => exact List.suffix_cons c cs

theorem readName_suffix (cs : List Char) : (readName cs).2 <:+ cs := by
  fun_induction readName cs with
  | case1 => exact List.suffix_refl _
  | case2 c cs _ r ih => exact ih.trans (List.suffix_cons c cs)
  | case3 => exact List.suffix_refl _
  | case4 => exact List.suffix_refl _
  | case5 c _ _ d ds _ e r ih =>
    exact (ih.trans (readEscape_suffix (d :: ds))).trans (List.suffix_cons c _)
  | case6 => exact List.suffix_refl _

/-- Where nothing is read, nothing is taken. -/
theorem readName_of_fst_eq_nil {cs : List Char} (h : (readName cs).1 = []) :
    (readName cs).2 = cs := by
  revert h
  fun_cases readName cs with
  | case1 => exact fun _ => rfl
  | case2 => exact fun h => by cases h
  | case3 => exact fun _ => rfl
  | case4 => exact fun _ => rfl
  | case5 => exact fun h => by cases h
  | case6 => exact fun _ => rfl

theorem ofList_readName_ne {cs : List Char} (h : startsName cs = true) :
    String.ofList (readName cs).1 ≠ "" := by
  intro hempty
  have hnil : (readName cs).1 = [] := String.ofList_injective hempty
  have hlt := readName_length_lt h
  rw [readName_of_fst_eq_nil hnil] at hlt
  exact Nat.lt_irrefl _ hlt

theorem readString_suffix {quote : Char} {cs value rest : List Char}
    (h : readString quote cs = some (value, rest)) : rest <:+ cs := by
  fun_induction readString quote cs generalizing value rest with
  | case1 => cases h
  | case2 c cs _ =>
    cases h
    exact List.suffix_cons c cs
  | case3 => cases h
  | case4 => cases h
  | case5 c _ _ _ d ds _ ih =>
    exact ((ih h).trans (List.suffix_cons d ds)).trans (List.suffix_cons c _)
  | case6 c _ _ _ d ds _ e =>
    rename_i ih
    obtain ⟨⟨v, r⟩, hr, heq⟩ := Option.map_eq_some_iff.1 h
    cases heq
    exact ((ih hr).trans (readEscape_suffix (d :: ds))).trans (List.suffix_cons c _)
  | case7 c cs _ _ _ ih =>
    obtain ⟨⟨v, r⟩, hr, heq⟩ := Option.map_eq_some_iff.1 h
    cases heq
    exact (ih hr).trans (List.suffix_cons c cs)

/-- What stands in the parentheses is taken as it is, up to the one that closes. -/
theorem eq_append_of_readParenthesized {depth : Nat} {cs argument rest : List Char}
    (h : readParenthesized depth cs = some (argument, rest)) : cs = argument ++ ')' :: rest := by
  fun_induction readParenthesized depth cs generalizing argument rest with
  | case1 => cases h
  | case2 c cs hclose =>
    cases h
    rw [beq_iff_eq] at hclose
    rw [hclose, List.nil_append]
  | case3 c cs _ depth ih =>
    obtain ⟨⟨a, r⟩, hr, heq⟩ := Option.map_eq_some_iff.1 h
    cases heq
    rw [ih hr, List.cons_append]
  | case4 depth c cs _ ih =>
    obtain ⟨⟨a, r⟩, hr, heq⟩ := Option.map_eq_some_iff.1 h
    cases heq
    rw [ih hr, List.cons_append]

section readers

variable {text cs : List Char} (h : cs <:+ text)
include h

theorem sound_expectName : (expectName text.length cs).Sound text (· ≠ "") := by
  rw [expectName]
  split
  · next hstart =>
      exact Reading.sound_pure (ofList_readName_ne hstart) ((readName_suffix cs).trans h)
  · exact Reading.sound_fail (trueOf_faultAt h)

theorem sound_expect (c : Char) : (expect text.length c cs).Sound text fun _ => True := by
  cases cs with
  | nil => exact Reading.sound_fail (f := .unexpectedEnd) trivial
  | cons d ds =>
    rw [expect]
    split
    · exact Reading.sound_pure trivial ((List.suffix_cons d ds).trans h)
    · exact Reading.sound_fail (trueOf_faultAt h)

/-! ## 5. Conditions on attributes -/

theorem sound_readOperator : (readOperator text.length cs).Sound text fun _ => True := by
  cases cs with
  | nil => exact Reading.sound_fail (f := .unexpectedEnd) trivial
  | cons c cs =>
    have hrest : cs <:+ text := (List.suffix_cons c cs).trans h
    rw [readOperator]
    split
    · exact Reading.sound_pure trivial hrest
    · split
      · exact Reading.sound_pure trivial hrest
      · split
        · exact (sound_expect hrest '=').bind fun _ rest _ hrest => Reading.sound_pure trivial hrest
        · exact Reading.sound_fail (trueOf_faultAt h)

omit h in
theorem sound_readQuoted (quote : Quote) (h : quote.char :: cs <:+ text) :
    (readQuoted text.length quote cs).Sound text fun _ => True := by
  rw [readQuoted]
  split
  · next hread =>
    exact Reading.sound_pure trivial
      (((readString_suffix hread).trans (List.suffix_cons _ cs)).trans h)
  · exact Reading.sound_fail (trueOf_unterminatedString h)

theorem sound_readValue : (readValue text.length cs).Sound text fun _ => True := by
  unfold readValue
  split
  · exact sound_readQuoted .double h
  · exact sound_readQuoted .single h
  · exact (sound_expectName h).mono fun _ _ => trivial

theorem sound_readAttribute :
    (readAttribute text.length cs).Sound text fun test => test.name ≠ "" := by
  have hskip : ∀ {rest}, rest <:+ text → skipBlanks rest <:+ text :=
    fun hrest => (skipBlanks_suffix _).trans hrest
  refine (sound_expectName (hskip h)).bind fun name rest hname hrest => ?_
  refine (sound_readOperator (hskip hrest)).bind fun op rest _ hrest => ?_
  cases op with
  | none => exact Reading.sound_pure hname hrest
  | some op =>
    refine (sound_readValue (hskip hrest)).bind fun value rest _ hrest => ?_
    exact (sound_expect (hskip hrest) ']').bind fun _ rest _ hrest => Reading.sound_pure hname hrest

/-! ## 6. Pseudo-classes -/

theorem sound_readArgument : (readArgument cs).Sound text fun argument =>
    ∀ a ∈ argument, '(' :: a ++ [')'] <:+: text := by
  unfold readArgument
  split
  · next cs =>
    split
    · next argument rest hread =>
      have hcs := eq_append_of_readParenthesized hread
      obtain ⟨before, rfl⟩ := h
      refine Reading.sound_pure (fun a ha => ?_) ?_
      · cases ha
        exact ⟨before, rest, by rw [hcs]; simp⟩
      · exact ⟨before ++ '(' :: argument ++ [')'], by rw [hcs]; simp⟩
    · exact Reading.sound_fail (f := .unexpectedEnd) trivial
  · exact Reading.sound_pure (fun a ha => by cases ha) h

omit h in
theorem exists_of_pseudoOf_eq_error {name : String} {argument : Option (List Char)} {f : Fault}
    (h : pseudoOf name argument = .error f) :
    ∃ a ∈ argument, f = .invalidNth (String.ofList a) := by
  revert h
  fun_cases pseudoOf name argument with
  | case1 => exact fun h => by cases h
  | case2 => exact fun h => by cases h
  | case3 => exact fun h => by cases h
  | case4 argument =>
    intro h
    cases h
    exact ⟨argument, rfl, rfl⟩

/-- A condition that does not stand at the front of its compound. -/
def Simple.Follows (s : Simple) : Prop := s.Named ∧ ¬s.IsHead

theorem sound_readPseudoClass : (readPseudoClass text.length cs).Sound text Simple.Follows := by
  refine (sound_expectName h).bind fun name rest _ hrest => ?_
  refine (sound_readArgument hrest).bind fun argument rest hargument hrest => ?_
  split
  · next f hf =>
    obtain ⟨a, ha, rfl⟩ := exists_of_pseudoOf_eq_error hf
    apply Reading.sound_fail
    show '(' :: (String.ofList a).toList ++ [')'] <:+: text
    rw [String.toList_ofList]
    exact hargument a ha
  · exact Reading.sound_pure ⟨trivial, id⟩ hrest
  · exact Reading.sound_pure ⟨trivial, id⟩ hrest

theorem sound_readPseudo : (readPseudo text.length cs).Sound text Simple.Follows := by
  unfold readPseudo
  split
  · next cs =>
    refine (sound_expectName ((List.suffix_cons ':' cs).trans h)).bind fun name rest _ hrest => ?_
    exact (sound_readArgument hrest).bind fun _ rest _ hrest =>
      Reading.sound_pure ⟨trivial, id⟩ hrest
  · exact sound_readPseudoClass h

/-! ## 7. Compounds -/

theorem sound_readSimple {r : Reading Simple} (hr : readSimple text.length cs = some r) :
    r.Sound text Simple.Follows := by
  obtain ⟨cs, ⟨rfl, rfl⟩ | ⟨rfl, rfl⟩ | ⟨rfl, rfl⟩ | ⟨rfl, rfl⟩⟩ := exists_of_readSimple hr
  · exact (sound_expectName ((List.suffix_cons _ cs).trans h)).bind fun name rest hname hrest =>
      Reading.sound_pure ⟨hname, id⟩ hrest
  · exact (sound_expectName ((List.suffix_cons _ cs).trans h)).bind fun name rest hname hrest =>
      Reading.sound_pure ⟨hname, id⟩ hrest
  · exact (sound_readAttribute ((List.suffix_cons _ cs).trans h)).bind fun test rest hname hrest =>
      Reading.sound_pure ⟨hname, id⟩ hrest
  · exact sound_readPseudo ((List.suffix_cons _ cs).trans h)

theorem sound_readSimples :
    (readSimples text.length cs).Sound text fun ss => ∀ s ∈ ss, s.Follows := by
  -- Each condition leaves an end of the text, from which the next one is read.
  generalize htotal : text.length = total
  fun_induction readSimples total cs with
  | case1 => exact Reading.sound_pure (fun s hs => by cases hs) h
  | case2 cs f warnings taken => exact sound_readSimple h (htotal ▸ taken)
  | case3 cs s rest warnings taken ih =>
    have hs := sound_readSimple h (htotal ▸ taken)
    refine (Reading.sound_after warnings).2 ((ih hs.2).bind fun ss rest hss hrest => ?_)
    refine Reading.sound_pure (fun s' hs' => ?_) hrest
    rcases List.mem_cons.1 hs' with rfl | hs'
    · exact hs.1
    · exact hss s' hs'

/-- At the front stands nothing or one condition, the star or a type. -/
theorem sound_readHead :
    (∀ s ∈ (readHead cs).1, s.Named) ∧ (readHead cs).1.length ≤ 1 ∧ (readHead cs).2 <:+ text := by
  unfold readHead
  split
  · next cs =>
    refine ⟨fun s hs => ?_, Nat.le_refl 1, (List.suffix_cons _ cs).trans h⟩
    rw [List.mem_singleton.1 hs]
    trivial
  · split
    · next hstart =>
      refine ⟨fun s hs => ?_, Nat.le_refl 1, (readName_suffix cs).trans h⟩
      rw [List.mem_singleton.1 hs]
      exact ofList_readName_ne hstart
    · exact ⟨fun s hs => (by cases hs), Nat.zero_le 1, h⟩

/-- **A compound that is read has a condition**, names that are not empty, and its type at
the front. -/
theorem sound_readCompound : (readCompound text.length cs).Sound text Compound.Shaped := by
  obtain ⟨hnamed, hlength, hhead⟩ := sound_readHead h
  refine (sound_readSimples hhead).bind fun ss rest hss hrest => ?_
  split
  · exact Reading.sound_fail (trueOf_faultAt hrest)
  · next hne =>
    have hnonempty : (readHead cs).1 ++ ss ≠ [] := fun hnil => hne (List.isEmpty_iff.2 hnil)
    refine Reading.sound_pure (P := Compound.Shaped)
      ⟨hnonempty, fun s hs => ?_, fun s hs => ?_⟩ hrest
    · exact (List.mem_append.1 hs).elim (hnamed s) fun hs => (hss s hs).1
    · -- Behind the first condition all come from the row.
      have htail : s ∈ ss := by
        cases hfirst : (readHead cs).1 with
        | nil =>
          rw [hfirst] at hs
          exact List.mem_of_mem_tail hs
        | cons first more =>
          rw [hfirst, List.length_cons] at hlength
          rw [hfirst,
            List.eq_nil_of_length_eq_zero (Nat.le_zero.1 (Nat.le_of_succ_le_succ hlength))] at hs
          exact hs
      exact (hss s htail).2

/-! ## 8. Chains and lists -/

theorem sound_readCombinator : (readCombinator text.length cs).Sound text fun _ => True := by
  have hskip := (skipBlanks_suffix cs).trans h
  unfold readCombinator
  split
  · exact Reading.sound_pure trivial (List.nil_suffix)
  · next c rest heq =>
    rw [heq] at hskip
    split
    · exact Reading.sound_pure trivial hskip
    · split
      · exact Reading.sound_pure trivial
          (((skipBlanks_suffix rest).trans (List.suffix_cons c rest)).trans hskip)
      · split
        · exact Reading.sound_pure trivial hskip
        · exact Reading.sound_fail (trueOf_faultAt hskip)

theorem sound_readOperand : (readOperand text.length cs).Sound text Compound.Shaped := by
  cases cs with
  | nil => exact Reading.sound_fail (f := .unexpectedEnd) trivial
  | cons c cs =>
    rw [readOperand]
    split
    · exact Reading.sound_fail (trueOf_faultAt h)
    · exact sound_readCompound h

theorem sound_readLink :
    (readLink text.length cs).Sound text fun link => ∀ found ∈ link, Compound.Shaped found.2 := by
  refine (sound_readCombinator h).bind fun k rest _ hrest => ?_
  cases k with
  | none => exact Reading.sound_pure (fun found hfound => by cases hfound) hrest
  | some k =>
    refine (sound_readOperand hrest).bind fun c rest hc hrest =>
      Reading.sound_pure (fun found hfound => ?_) hrest
    cases hfound
    exact hc

theorem sound_readChain :
    (readChain text.length cs).Sound text fun links => ∀ link ∈ links, Compound.Shaped link.2 := by
  generalize htotal : text.length = total
  fun_induction readChain total cs with
  | case1 cs f warnings taken =>
    have hlink := sound_readLink h
    rwa [htotal, taken] at hlink
  | case2 cs rest warnings taken =>
    have hlink := sound_readLink h
    rw [htotal, taken] at hlink
    exact ⟨fun link hmem => (by cases hmem), hlink.2⟩
  | case3 cs link rest warnings taken ih =>
    have hlink := sound_readLink h
    rw [htotal, taken] at hlink
    refine (Reading.sound_after warnings).2 ((ih hlink.2).bind fun links rest hlinks hrest => ?_)
    refine Reading.sound_pure (fun link' hmem => ?_) hrest
    rcases List.mem_cons.1 hmem with rfl | hmem
    · exact hlink.1 _ rfl
    · exact hlinks link' hmem

end readers

theorem Complex.shaped_ofLinks {first : Compound} {links : List (Combinator × Compound)}
    (hfirst : Compound.Shaped first) (hlinks : ∀ link ∈ links, Compound.Shaped link.2) :
    (Complex.ofLinks first links).Shaped := by
  induction links generalizing first with
  | nil => exact ⟨hfirst, fun link hlink => by cases hlink⟩
  | cons link links ih =>
    obtain ⟨k, c⟩ := link
    have hinner := ih (hlinks _ (.head _)) fun link hlink => hlinks link (.tail _ hlink)
    rw [ofLinks_cons]
    refine ⟨hinner.subject, fun link hlink => ?_⟩
    rcases List.mem_append.1 hlink with hlink | hlink
    · exact hinner.chain link hlink
    · rw [List.mem_singleton.1 hlink]
      exact hfirst

theorem sound_readComplex {text cs : List Char} (h : cs <:+ text) :
    (readComplex text.length cs).Sound text Complex.Shaped := by
  unfold readComplex
  simp only
  split
  · exact Reading.sound_fail (f := .empty) trivial
  · refine (sound_readCompound ((skipBlanks_suffix cs).trans h)).bind
      fun first rest hfirst hrest => ?_
    exact (sound_readChain hrest).bind fun links rest hlinks hrest =>
      Reading.sound_pure (Complex.shaped_ofLinks hfirst hlinks) hrest

theorem sound_readSelectors {text cs : List Char} (h : cs <:+ text) :
    (readSelectors text.length cs).Sound text Selectors.Shaped := by
  generalize htotal : text.length = total
  fun_induction readSelectors total cs with
  | case1 cs f warnings taken =>
    have hfirst := sound_readComplex h
    rwa [htotal, taken] at hfirst
  | case2 cs s warnings taken =>
    have hfirst := sound_readComplex h
    rw [htotal, taken] at hfirst
    refine ⟨⟨List.cons_ne_nil _ _, fun s' hs' => ?_⟩, hfirst.2⟩
    rw [List.mem_singleton.1 hs']
    exact hfirst.1
  | case3 cs s c rest warnings taken hcomma ih =>
    have hfirst := sound_readComplex h
    rw [htotal, taken] at hfirst
    have hrest := (List.suffix_cons c rest).trans hfirst.2
    refine (Reading.sound_after warnings).2 ((ih hrest).bind fun l rest hl hrest => ?_)
    refine Reading.sound_pure ⟨List.cons_ne_nil _ _, fun s' hs' => ?_⟩ hrest
    rcases List.mem_cons.1 hs' with rfl | hs'
    · exact hfirst.1
    · exact hl.selectors s' hs'
  | case4 cs s c rest warnings taken =>
    have hfirst := sound_readComplex h
    rw [htotal, taken] at hfirst
    rw [← htotal]
    exact trueOf_faultAt hfirst.2

/-- **Every text is read to an end**: it comes to a list of selectors that are shaped as they should
be, or to a fault that is true of the text. -/
theorem parse_sound (text : String) :
    (∃ l : Selectors, parse text = .ok l ∧ l.Shaped) ∨
      ∃ f : Fault, parse text = .error f ∧ f.TrueOf text.toList := by
  have hread := sound_readSelectors (List.suffix_refl text.toList)
  rw [parse, read]
  cases h : readSelectors text.toList.length text.toList with
  | ok l rest warnings =>
    rw [h] at hread
    exact .inl ⟨l, rfl, hread.1⟩
  | fault f warnings =>
    rw [h] at hread
    exact .inr ⟨f, rfl, hread⟩

end UniqueSelector.Selector
