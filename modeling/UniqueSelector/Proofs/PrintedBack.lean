import UniqueSelector.Proofs.Printing
import UniqueSelector.Proofs.Joints

/-!
# Printed back — the reader on the text of the printer

The reader takes the text of a list of selectors for the list. A name that breaks off with a number
takes one blank from what follows, but behind the two blanks of a descendant and around the sign of
any other combinator nobody can see whether that blank was there.
-/

namespace UniqueSelector

namespace Selector

/-! ## 1. Blanks that may be gone -/

/-- What is left of a text when a name was read in front of it: a number takes one blank. -/
def Leaves (rest left : List Char) : Prop := left = rest ∨ left = dropBlank rest

theorem leaves_refl (rest : List Char) : Leaves rest rest := .inl rfl

theorem leaves_behind (ps : List Piece) (rest : List Char) : Leaves rest (behind ps rest) := by
  unfold behind
  split
  · exact .inr rfl
  · exact .inl rfl

theorem Leaves.eq_of_not_isBlank {c : Char} (hc : isBlank c = false) {cs left : List Char}
    (h : Leaves (c :: cs) left) : left = c :: cs := by
  rcases h with h | h
  · exact h
  · rwa [dropBlank_of_not_isBlank hc] at h

/-- A name ends here, and has no argument. -/
def Ends (cs : List Char) : Prop :=
  ∀ c ∈ cs.head?, isNameChar c = false ∧ c ≠ '\\' ∧ isHexDigit c = false ∧ c ≠ '('

theorem Ends.readName {cs : List Char} (h : Ends cs) : readName cs = ([], cs) :=
  readName_stop fun c hc => ⟨(h c hc).1, (h c hc).2.1⟩

theorem Ends.noDigitFirst {cs : List Char} (h : Ends cs) : NoDigitFirst cs :=
  fun c hc => (h c hc).2.2.1

theorem Stops.ends {cs : List Char} (h : Stops cs) : Ends cs :=
  h.forall_head (P := fun c => isNameChar c = false ∧ c ≠ '\\' ∧ isHexDigit c = false ∧ c ≠ '(')
    (by decide)

/-- A sign with which a condition begins that is no name. -/
def Announces (c : Char) : Prop := c = '#' ∨ c = '.' ∨ c = '[' ∨ c = ':'

theorem Announces.sound {c : Char} (h : Announces c) :
    isBlank c = false ∧ c ≠ ',' ∧ signOf? c = none ∧ c ≠ '*' ∧
      isNameChar c = false ∧ c ≠ '\\' ∧ isHexDigit c = false ∧ c ≠ '(' := by
  rcases h with rfl | rfl | rfl | rfl <;> decide

theorem Announces.startsName {c : Char} (h : Announces c) (cs : List Char) :
    startsName (c :: cs) = false := by
  rcases h with rfl | rfl | rfl | rfl <;> rfl

/-! ## 2. Conditions -/

theorem startsName_print {name : String} (h : PrintableName name) (rest : List Char) :
    startsName ((escapeName name).toList ++ rest) = true := by
  rw [toList_escapeName]
  exact startsName_namePieces h.1 rest

section rest

variable {rest : List Char} (hrest : ∀ left, Leaves rest left → Ends left)
include hrest

theorem readName_print {name : String} (h : PrintableName name) :
    ∃ left, Leaves rest left ∧
      String.ofList (readName ((escapeName name).toList ++ rest)).1 = name ∧
      (readName ((escapeName name).toList ++ rest)).2 = left := by
  have hends := hrest _ (leaves_behind (namePieces name) rest)
  have hread : readName ((escapeName name).toList ++ rest) =
      ((namePieces name).map Piece.value, behind (namePieces name) rest) := by
    rw [toList_escapeName,
      readName_written (inName_namePieces name) fun _ =>
      (hrest rest (leaves_refl rest)).noDigitFirst,
      hends.readName, List.append_nil]
  refine ⟨_, leaves_behind (namePieces name) rest, ?_, congrArg Prod.snd hread⟩
  rw [hread]
  exact (map_value_namePieces name).trans (readable_of_notMem h.2)

theorem expectName_print {name : String} (h : PrintableName name) (total : Nat) :
    ∃ left, Leaves rest left ∧
      expectName total ((escapeName name).toList ++ rest) = .pure name left := by
  obtain ⟨left, hleft, hname, hlast⟩ := readName_print hrest h
  refine ⟨left, hleft, ?_⟩
  rw [expectName_of_startsName (startsName_print h rest), hname, hlast]
  rfl

end rest

theorem readAttribute_print {test : AttributeTest} (h : test.Printable) (total : Nat)
    (rest : List Char) :
    ∃ cs, test.print.toList ++ rest = '[' :: cs ∧ readAttribute total cs = .pure test rest := by
  have hopen : "[".toList = ['['] := by decide
  have hclose : "]".toList = [']'] := by decide
  have hquote : "\"".toList = [Quote.double.char] := by decide
  cases test with
  | present name =>
    have hname : PrintableName name := h
    refine ⟨(escapeName name).toList ++ ']' :: rest, ?_, ?_⟩
    · simp [AttributeTest.print, hopen, hclose]
    · rw [toList_escapeName,
        readAttribute_present (inName_namePieces name) (startsName_namePieces hname.1),
        map_value_namePieces, readable_of_notMem hname.2]
  | compare name op value =>
    obtain ⟨hname, hvalue⟩ : PrintableName name ∧ '\x00' ∉ value.toList := h
    refine ⟨(escapeName name).toList ++ (op.symbol.toList ++ Quote.double.char ::
      ((escape (.string .double) value).toList ++ Quote.double.char :: ']' :: rest)), ?_, ?_⟩
    · simp [AttributeTest.print, hopen, hclose, hquote]
    · rw [toList_escapeName, toList_escape_string,
        readAttribute_compare .double (inName_namePieces name) (inString_stringPieces .double value)
        (startsName_namePieces hname.1), map_value_namePieces, map_value_stringPieces,
        readable_of_notMem hname.2, readable_of_notMem hvalue]

namespace Pseudo

theorem name_mem (p : Pseudo) :
    p.name ∈ ["root", "empty", "nth-child", "nth-last-child", "first-child",
      "last-child", "only-child", "first-of-type", "last-of-type"] := by
  cases p <;> simp [name]

/-- The names of the pseudo-classes are in small letters and need no escapes. -/
theorem name_plain (p : Pseudo) : p.name.toList.head?.any isNameStart = true ∧
    p.name.toList.all isNameChar = true ∧ asciiLower p.name = p.name := by
  have hall :
      ∀ name ∈ ["root", "empty", "nth-child", "nth-last-child", "first-child", "last-child",
        "only-child", "first-of-type", "last-of-type"], name.toList.head?.any isNameStart = true ∧
        name.toList.all isNameChar = true ∧ asciiLower name = name := by decide
  exact hall p.name p.name_mem

theorem name_eq_cons (p : Pseudo) : ∃ c cs, p.name.toList = c :: cs ∧ isNameStart c = true := by
  have hfirst := p.name_plain.1
  cases hname : p.name.toList with
  | nil =>
    rw [hname] at hfirst
    cases hfirst
  | cons c cs =>
    rw [hname] at hfirst
    exact ⟨c, cs, rfl, hfirst⟩

theorem expectName_name (p : Pseudo) {rest : List Char} (hrest : readName rest = ([], rest))
    (total : Nat) :
    expectName total (p.name.toList ++ rest) = .pure p.name rest := by
  have hstart : startsName (p.name.toList ++ rest) = true := by
    obtain ⟨c, cs, hname, hc⟩ := p.name_eq_cons
    rw [hname]
    exact startsName_of_isNameStart hc _
  rw [expectName_of_startsName hstart, readName_append (List.all_eq_true.1 p.name_plain.2.1), hrest,
    List.append_nil, String.ofList_toList]
  rfl

theorem pseudoOf_name {p : Pseudo} (h : p.nth? = none) :
    pseudoOf (asciiLower p.name) none = .ok (some p) := by
  rw [p.name_plain.2.2]
  cases p with
  | nthChild nth => cases h
  | nthLastChild nth => cases h
  | _ => rfl

theorem pseudoOf_name_print {p : Pseudo} (hp : p.Printable) {nth : Nth} (h : p.nth? = some nth) :
    pseudoOf (asciiLower p.name) (some nth.print.toList) = .ok (some p) := by
  have hread := Nth.read?_print (hp nth h).1 (hp nth h).2
  have hcounting : ∃ counting, countingPseudo? p.name = some counting ∧ counting nth = p := by
    cases p with
    | nthChild nth' => cases h; exact ⟨.nthChild, by simp [name, countingPseudo?, List.lookup], rfl⟩
    | nthLastChild nth' =>
      cases h; exact ⟨.nthLastChild, by simp [name, countingPseudo?, List.lookup], rfl⟩
    | _ => cases h
  obtain ⟨counting, hname, hcounted⟩ := hcounting
  rw [p.name_plain.2.2]
  simp only [pseudoOf, hname, hread, hcounted]

/-- The argument ends the name and is read as it stands. -/
theorem readArgument_argument (p : Pseudo) {rest : List Char} (hrest : Ends rest) :
    readName (p.argument.toList ++ rest) = ([], p.argument.toList ++ rest) ∧
      readArgument (p.argument.toList ++ rest) =
        .pure (p.nth?.map fun nth => nth.print.toList) rest := by
  have hopen : "(".toList = ['('] := by decide
  have hclose : ")".toList = [')'] := by decide
  unfold argument
  cases p.nth? with
  | none =>
    refine ⟨hrest.readName, ?_⟩
    show readArgument rest = .pure none rest
    unfold readArgument
    split
    · exact absurd rfl (hrest _ rfl).2.2.2
    · rfl
  | some nth =>
    have htext : ("(" ++ nth.print ++ ")").toList ++ rest =
        '(' :: (nth.print.toList ++ ')' :: rest) := by
      simp [hopen, hclose]
    have hparentheses : ∀ c ∈ nth.print.toList, c ≠ '(' ∧ c ≠ ')' :=
      fun c hc => (Nth.sound_of_mem_print hc).2.2.2
    show readName (("(" ++ nth.print ++ ")").toList ++ rest) = _ ∧
      readArgument (("(" ++ nth.print ++ ")").toList ++ rest) = _
    rw [Option.elim_some, htext]
    constructor
    · apply readName_stop
      intro c hc
      cases hc
      decide
    · rw [readArgument, readParenthesized_append hparentheses]
      rfl

/-- **A pseudo-class is read with its formula.** -/
theorem readPseudo_print {p : Pseudo} (hp : p.Printable) {rest : List Char} (hrest : Ends rest)
    (total : Nat) :
    ∃ cs, p.print.toList ++ rest = ':' :: cs ∧ readPseudo total cs = .pure (.pseudo p) rest := by
  have hcolon : ":".toList = [':'] := by decide
  refine ⟨p.name.toList ++ (p.argument.toList ++ rest), by simp [print, hcolon], ?_⟩
  obtain ⟨hends, hargument⟩ := p.readArgument_argument hrest
  have hpseudo : pseudoOf (asciiLower p.name) (p.nth?.map fun nth => nth.print.toList) =
      .ok (some p) := by
    cases h : p.nth? with
    | none => exact pseudoOf_name h
    | some nth => exact pseudoOf_name_print hp h
  -- A second colon would make it a pseudo-element, but a name begins here.
  have hclass : readPseudo total (p.name.toList ++ (p.argument.toList ++ rest)) =
      readPseudoClass total (p.name.toList ++ (p.argument.toList ++ rest)) := by
    obtain ⟨c, cs, hname, hc⟩ := p.name_eq_cons
    rw [hname, List.cons_append, readPseudo]
    rintro _ ⟨⟩
    exact absurd hc (by decide)
  rw [hclass, readPseudoClass, p.expectName_name hends, Reading.pure_bind, hargument,
    Reading.pure_bind, hpseudo]

end Pseudo

/-! ## 3. Compounds -/

namespace Simple

section attached

variable {s : Simple} (hs : s.Printable) (hhead : ¬s.IsHead)
include hs hhead

/-- A condition that is no head is announced by its first character. -/
theorem announces_print : ∃ c cs, s.print.toList = c :: cs ∧ Announces c := by
  cases s with
  | type name => exact absurd trivial hhead
  | «class» name => exact ⟨'.', _, toList_print_class name, .inr (.inl rfl)⟩
  | id name => exact ⟨'#', _, toList_print_id name, .inl rfl⟩
  | universal => exact absurd trivial hhead
  | never => exact hs.elim
  | «attribute» test =>
    have htest : test.Printable := hs
    obtain ⟨cs, hcs, -⟩ := readAttribute_print htest 0 []
    rw [List.append_nil] at hcs
    exact ⟨'[', cs, hcs, .inr (.inr (.inl rfl))⟩
  | pseudo p =>
    obtain ⟨cs, hcs, -⟩ := Pseudo.readPseudo_print (p := p) hs stops_nil.ends 0
    rw [List.append_nil] at hcs
    exact ⟨':', cs, hcs, .inr (.inr (.inr rfl))⟩

/-- **A condition is read as what it is.** -/
theorem readSimple_print {rest : List Char} (hrest : ∀ left, Leaves rest left → Ends left)
    (total : Nat) :
    ∃ left, Leaves rest left ∧ readSimple total (s.print.toList ++ rest) = some (.pure s left) := by
  cases s with
  | type name => exact absurd trivial hhead
  | «class» name =>
    obtain ⟨left, hleft, hread⟩ := expectName_print hrest hs total
    refine ⟨left, hleft, ?_⟩
    rw [toList_print_class]
    show some ((expectName total ((escapeName name).toList ++ rest)).bind _) = _
    rw [hread, Reading.pure_bind]
  | id name =>
    obtain ⟨left, hleft, hread⟩ := expectName_print hrest hs total
    refine ⟨left, hleft, ?_⟩
    rw [toList_print_id]
    show some ((expectName total ((escapeName name).toList ++ rest)).bind _) = _
    rw [hread, Reading.pure_bind]
  | universal => exact absurd trivial hhead
  | never => exact hs.elim
  | «attribute» test =>
    have htest : test.Printable := hs
    obtain ⟨cs, hcs, hread⟩ := readAttribute_print htest total rest
    refine ⟨rest, leaves_refl rest, ?_⟩
    rw [print, hcs]
    show some ((readAttribute total cs).bind _) = _
    rw [hread, Reading.pure_bind]
  | pseudo p =>
    obtain ⟨cs, hcs, hread⟩ :=
      Pseudo.readPseudo_print (p := p) hs (hrest rest (leaves_refl rest)) total
    refine ⟨rest, leaves_refl rest, ?_⟩
    rw [print, hcs]
    exact congrArg some hread

end attached

section head

variable {s : Simple} (hs : s.Printable) (hhead : s.IsHead)
include hs hhead

/-- The star and the name of a type are read at the front of a compound. -/
theorem readHead_print {rest : List Char} (hrest : ∀ left, Leaves rest left → Ends left) :
    ∃ left, Leaves rest left ∧ readHead (s.print.toList ++ rest) = ([s], left) := by
  cases s with
  | type name =>
    obtain ⟨left, hleft, hname, hlast⟩ := readName_print hrest hs
    refine ⟨left, hleft, ?_⟩
    rw [print, Feature.readHead_of_startsName (startsName_print hs rest), hname, hlast]
  | universal =>
    refine ⟨rest, leaves_refl rest, ?_⟩
    rw [toList_print_universal]
    rfl
  | _ => exact hhead.elim

theorem opens_print (rest : List Char) : Opens (s.print.toList ++ rest) := by
  cases s with
  | type name => exact opens_of_startsName (startsName_print hs rest)
  | universal => exact ⟨'*', rest, by rw [toList_print_universal]; rfl, by decide, by decide, rfl⟩
  | _ => exact hhead.elim

end head

end Simple

namespace Compound

theorem toList_print_cons (s : Simple) (c : Compound) (rest : List Char) :
    (print (s :: c)).toList ++ rest = s.print.toList ++ ((print c).toList ++ rest) := by
  rw [print, List.map_cons, String.join_cons, String.toList_append, List.append_assoc]
  rfl

section attached

variable {rest : List Char} (hrest : ∀ left, Leaves rest left → Stops left)
include hrest

/-- Where conditions go on or stop, a name in front of them ends. -/
theorem ends_print {ss : Compound} (hss : ∀ s ∈ ss, s.Printable ∧ ¬s.IsHead) :
    ∀ left, Leaves ((print ss).toList ++ rest) left → Ends left := by
  intro left hleft
  cases ss with
  | nil => exact (hrest left hleft).ends
  | cons s ss =>
    obtain ⟨c, cs, hcs, hc⟩ := Simple.announces_print (hss s (.head ss)).1 (hss s (.head ss)).2
    rw [toList_print_cons, hcs, List.cons_append] at hleft
    rw [hleft.eq_of_not_isBlank hc.sound.1]
    intro d hd
    cases hd
    exact hc.sound.2.2.2.2

/-- Conditions one behind the other, with a name in front of them that may have taken a blank. -/
theorem readSimples_print {ss : Compound} (hss : ∀ s ∈ ss, s.Printable ∧ ¬s.IsHead) (total : Nat)
    {cs : List Char} (hcs : Leaves ((print ss).toList ++ rest) cs) :
    ∃ left, Leaves rest left ∧ readSimples total cs = .pure ss left := by
  induction ss generalizing cs with
  | nil => exact ⟨cs, hcs, (hrest cs hcs).readSimples total⟩
  | cons s ss ih =>
    have hs := hss s (.head ss)
    have hrests : ∀ s ∈ ss, s.Printable ∧ ¬s.IsHead := fun s h => hss s (.tail _ h)
    obtain ⟨c, ds, hds, hc⟩ := Simple.announces_print hs.1 hs.2
    -- No blank stands in front of a condition, so none is gone.
    have hall : cs = s.print.toList ++ ((print ss).toList ++ rest) := by
      rw [toList_print_cons, hds, List.cons_append] at hcs
      rw [hcs.eq_of_not_isBlank hc.sound.1, hds, List.cons_append]
    obtain ⟨middle, hmiddle, hread⟩ :=
      Simple.readSimple_print hs.1 hs.2 (ends_print hrest hrests) total
    obtain ⟨left, hleft, hmore⟩ := ih hrests hmiddle
    refine ⟨left, hleft, ?_⟩
    rw [hall, readSimples_of_some hread, Reading.pure_bind, hmore, Reading.pure_bind]

/-- **A compound is read as what it is**, and leaves what follows, perhaps without a blank. -/
theorem readCompound_print {c : Compound} (hc : Printable c) (total : Nat) :
    ∃ left, Leaves rest left ∧ readCompound total ((print c).toList ++ rest) = .pure c left := by
  obtain ⟨hne, hprintable, hheaded⟩ := hc
  cases c with
  | nil => exact absurd rfl hne
  | cons s ss =>
    have hs := hprintable s (.head ss)
    have hss : ∀ s ∈ ss, s.Printable ∧ ¬s.IsHead :=
      fun s h => ⟨hprintable s (.tail _ h), hheaded s h⟩
    have hends := ends_print hrest hss
    rw [toList_print_cons]
    by_cases hhead : s.IsHead
    · -- The star or the type is read first, and the other conditions behind it.
      obtain ⟨middle, hmiddle, hread⟩ := Simple.readHead_print hs hhead hends
      obtain ⟨left, hleft, hmore⟩ := readSimples_print hrest hss total hmiddle
      exact ⟨left, hleft, by rw [Feature.readCompound_of_readHead hread, hmore, Reading.pure_bind]⟩
    · obtain ⟨middle, hmiddle, hread⟩ := Simple.readSimple_print hs hhead hends total
      obtain ⟨left, hleft, hmore⟩ := readSimples_print hrest hss total hmiddle
      have hfirst : readHead (s.print.toList ++ ((print ss).toList ++ rest)) =
          ([], s.print.toList ++ ((print ss).toList ++ rest)) := by
        obtain ⟨c, cs, hcs, hc⟩ := Simple.announces_print hs hhead
        rw [hcs, List.cons_append]
        exact readHead_of_not_startsName hc.sound.2.2.2.1 (hc.startsName _)
      refine ⟨left, hleft, ?_⟩
      rw [readCompound_of_readSimple hfirst hread, Reading.pure_bind, hmore, Reading.pure_bind]

end attached

/-- A compound begins in a way that nothing else does. -/
theorem opens_print {c : Compound} (hc : Printable c) (rest : List Char) :
    Opens ((print c).toList ++ rest) := by
  obtain ⟨hne, hprintable, -⟩ := hc
  cases c with
  | nil => exact absurd rfl hne
  | cons s ss =>
    have hs := hprintable s (.head ss)
    rw [toList_print_cons]
    by_cases hhead : s.IsHead
    · exact Simple.opens_print hs hhead _
    · obtain ⟨c, cs, hcs, hc⟩ := Simple.announces_print hs hhead
      exact ⟨c, _, by rw [hcs]; rfl, hc.sound.1, hc.sound.2.1, hc.sound.2.2.1⟩

end Compound

/-! ## 4. Chains -/

namespace Combinator

theorem read_blanks {next left : List Char} (hnext : Opens next)
    (hleft : Leaves (' ' :: ' ' :: next) left) :
    Stops left ∧ ∀ total, readCombinator total left = .pure (some .descendant) next := by
  -- Of two blanks at least one is there.
  rcases hleft with rfl | rfl
  · exact ⟨stops_cons (.inl rfl) _,
      fun total => readCombinator_of_blanks hnext hnext.skipBlanks (by simp)⟩
  · exact ⟨stops_cons (.inl rfl) _,
      fun total => readCombinator_of_blanks hnext hnext.skipBlanks (Nat.lt_succ_self _)⟩

theorem read_sign {c : Char} {k : Combinator} (hsign : signOf? c = some k) {next left : List Char}
    (hnext : Opens next) (hleft : Leaves (' ' :: c :: ' ' :: next) left) :
    Stops left ∧ ∀ total, readCombinator total left = .pure (some k) next := by
  have hsome : (signOf? c).isSome = true := by rw [hsign]; rfl
  have hblank : isBlank c = false := by
    rcases eq_of_isSome_signOf? hsome with rfl | rfl | rfl <;> rfl
  have hread : ∀ {cs}, skipBlanks cs = c :: ' ' :: next →
      ∀ total, readCombinator total cs = .pure (some k) next := by
    intro cs hcs total
    rw [readCombinator_of_signOf? hcs hsign, skipBlanks_blank, hnext.skipBlanks]
  rcases hleft with rfl | rfl
  · exact ⟨stops_cons (.inl rfl) _, hread (skipBlanks_cons hblank _)⟩
  · exact ⟨stops_cons (.inr (.inl hsome)) _, hread (skipBlanks_cons hblank _)⟩

/-- **A combinator stops what is in front of it and is read as what it is**, also if its first blank
is gone. -/
theorem read_print (k : Combinator) {next left : List Char} (hnext : Opens next)
    (hleft : Leaves (k.print.toList ++ next) left) :
    Stops left ∧ ∀ total, readCombinator total left = .pure (some k) next := by
  cases k with
  | descendant => exact read_blanks hnext hleft
  | child => exact read_sign rfl hnext hleft
  | nextSibling => exact read_sign rfl hnext hleft
  | subsequentSibling => exact read_sign rfl hnext hleft

end Combinator

/-- Nothing follows but a comma. -/
def Final (rest : List Char) : Prop := ∀ c ∈ rest.head?, c = ','

theorem Final.eq_of_leaves {rest left : List Char} (h : Final rest) (hleft : Leaves rest left) :
    left = rest := by
  cases rest with
  | nil => exact hleft.elim id id
  | cons c cs =>
    rw [h c rfl] at hleft ⊢
    exact hleft.eq_of_not_isBlank (by decide)

theorem Final.stops {rest : List Char} (h : Final rest) : Stops rest :=
  fun c hc => .inr (.inr (h c hc))

theorem Final.readChain {rest : List Char} (h : Final rest) (total : Nat) :
    readChain total rest = .pure [] rest := by
  cases rest with
  | nil => exact readChain_nil total
  | cons c cs =>
    rw [h c rfl, readChain_eq, readLink, readCombinator, skipBlanks_cons (by decide)]
    rfl

namespace Complex

theorem print_concat (subject : Compound) (chain : List (Combinator × Compound)) (k : Combinator)
    (c : Compound) :
    print ⟨subject, chain ++ [(k, c)]⟩ = Compound.print c ++ k.print ++ print ⟨subject, chain⟩ := by
  rw [print, List.foldl_append]
  rfl

theorem opens_print {s : Complex} (hs : s.Printable) (rest : List Char) :
    Opens (s.print.toList ++ rest) := by
  obtain ⟨subject, chain⟩ := s
  cases chain using List.reverseRecOn with
  | nil => exact Compound.opens_print hs.subject rest
  | append_singleton chain link =>
    obtain ⟨k, c⟩ := link
    rw [print_concat, String.toList_append, String.toList_append, List.append_assoc,
      List.append_assoc]
    exact Compound.opens_print (hs.chain (k, c) (List.mem_append_right _ (.head _))) _

/-- **A chain is read from the outermost compound to the subject**, up to the comma or the end. -/
theorem readLinked_print {s : Complex} (hs : s.Printable) {rest : List Char} (hrest : Final rest)
    (total : Nat) :
    readLinked total (s.print.toList ++ rest) = .pure s rest := by
  obtain ⟨subject, chain⟩ := s
  -- Each link is the outermost compound of what is read so far, so the chain grows at its end.
  induction chain using List.reverseRecOn with
  | nil =>
    have hstops : ∀ left, Leaves rest left → Stops left := by
      intro left hleft
      rw [hrest.eq_of_leaves hleft]
      exact hrest.stops
    obtain ⟨left, hleft, hread⟩ := Compound.readCompound_print hstops hs.subject total
    rw [hrest.eq_of_leaves hleft] at hread
    show readLinked total ((Compound.print subject).toList ++ rest) = _
    rw [readLinked, hread, Reading.pure_bind, hrest.readChain, Reading.pure_bind]
    rfl
  | append_singleton chain link ih =>
    obtain ⟨k, c⟩ := link
    have hinner : Printable ⟨subject, chain⟩ :=
      ⟨hs.subject, fun link hlink => hs.chain link (List.mem_append_left _ hlink)⟩
    have hc : Compound.Printable c := hs.chain (k, c) (List.mem_append_right _ (.head _))
    have hnext : Opens ((print ⟨subject, chain⟩).toList ++ rest) := opens_print hinner rest
    obtain ⟨left, hleft, hread⟩ :=
      Compound.readCompound_print (fun _ h => (k.read_print hnext h).1) hc total
    rw [print_concat, String.toList_append, String.toList_append, List.append_assoc,
      List.append_assoc, readLinked_of_readCombinator hread ((k.read_print hnext hleft).2 total)
      hnext, ih hinner, Reading.pure_bind]
    rfl

theorem readComplex_print {s : Complex} (hs : s.Printable) {rest : List Char} (hrest : Final rest)
    (total : Nat) :
    readComplex total (s.print.toList ++ rest) = .pure s rest := by
  rw [(opens_print hs rest).readComplex, readLinked_print hs hrest]

end Complex

/-! ## 5. Lists -/

namespace Selectors

theorem toList_print_cons (s s' : Complex) (l : Selectors) :
    (print (s :: s' :: l)).toList = s.print.toList ++ ',' :: (print (s' :: l)).toList := by
  have hcomma : ",".toList = [','] := by decide
  rw [print, List.map_cons, List.map_cons, String.intercalate_cons_cons, String.toList_append,
    String.toList_append, hcomma, List.append_assoc]
  rfl

theorem readSelectors_print {l : Selectors} (hne : l ≠ []) (hl : ∀ s ∈ l, s.Printable)
    (total : Nat) :
    readSelectors total (print l).toList = .pure l [] := by
  induction l with
  | nil => exact absurd rfl hne
  | cons s l ih =>
    have hs := hl s (.head l)
    cases l with
    | nil =>
      have hend : Final [] := fun c hc => by cases hc
      have hread := Complex.readComplex_print hs hend total
      rw [List.append_nil] at hread
      exact readSelectors_last hread
    | cons s' l =>
      have hcomma : Final (',' :: (print (s' :: l)).toList) := by
        intro c hc
        cases hc
        rfl
      have hrest := ih (List.cons_ne_nil s' l) fun s hs => hl s (.tail _ hs)
      rw [toList_print_cons, readSelectors_comma (Complex.readComplex_print hs hcomma total), hrest,
        Reading.pure_bind]

/-- **The reader undoes the printer**: every list of selectors that can be printed is read back from
its text, with the conditions in their order and the compounds outward from the subject. -/
theorem parse_print {l : Selectors} (hne : l ≠ []) (hl : ∀ s ∈ l, s.Printable) :
    parse (print l) = .ok l := by
  rw [parse, read, readSelectors_print hne hl]
  rfl

/-- A name that breaks off with a number, in front of the two blanks of a descendant; and the
widest formula. -/
def sampler : Selectors :=
  [⟨[.type "p", .attribute (.compare "1x" .dash "a\"b\n")],
    [(.descendant, [.id "b\n"]), (.child, [.universal])]⟩,
    ⟨[.class "é", .pseudo (.nthChild ⟨-2147483648, 2147483647⟩)],
      [(.subsequentSibling, [.pseudo .root])]⟩]

theorem parse_print_sampler :
    (sampler ≠ [] ∧ ∀ s ∈ sampler, s.Printable) ∧ parse (print sampler) = .ok sampler := by
  have hprintable : sampler ≠ [] ∧ ∀ s ∈ sampler, s.Printable := by decide
  exact ⟨hprintable, parse_print hprintable.1 hprintable.2⟩

end Selectors

end Selector

end UniqueSelector
