import UniqueSelector.Proofs.ReadBack
import UniqueSelector.Selector.ListReader

/-!
# Readers — what one step of each reader yields

The readers of names, attributes, compounds and chains, each on a text whose beginning is known.
With them the reader of selectors undoes the escaper: a text that is escaped as a name or as a
string is read as the text itself, with the replacement character for what cannot be written.
-/

namespace UniqueSelector.Selector

/-! ## 1. Readings without warnings -/

namespace Reading

@[simp] theorem after_nil (r : Reading α) : r.after [] = r := by cases r <;> rfl

@[simp] theorem pure_bind (value : α) (rest : List Char) (next : α → List Char → Reading β) :
    (pure value rest).bind next = next value rest :=
  after_nil _

@[simp] theorem ok_bind (value : α) (rest : List Char) (next : α → List Char → Reading β) :
    (Reading.ok value rest []).bind next = next value rest :=
  after_nil _

@[simp] theorem fail_bind (f : Fault) (next : α → List Char → Reading β) :
    (fail f).bind next = fail f := rfl

theorem after_after (ws vs : List Warning) (r : Reading α) :
    (r.after vs).after ws = r.after (ws ++ vs) := by
  cases r <;> simp [after]

theorem after_bind (ws : List Warning) (r : Reading α) (next : α → List Char → Reading β) :
    (r.after ws).bind next = (r.bind next).after ws := by
  cases r with
  | ok value rest vs => exact (after_after ws vs _).symm
  | fault f vs => rfl

theorem bind_assoc (r : Reading α) (next : α → List Char → Reading β)
    (last : β → List Char → Reading γ) :
    (r.bind next).bind last = r.bind fun value rest => (next value rest).bind last := by
  cases r with
  | ok value rest ws => exact after_bind ws _ last
  | fault f ws => rfl

theorem bind_eq_ok {r : Reading α} {next : α → List Char → Reading β} {value : β} {rest : List Char}
    {ws : List Warning} (h : r.bind next = .ok value rest ws) :
    ∃ first middle ws₁ ws₂, r = .ok first middle ws₁ ∧ next first middle = .ok value rest ws₂ := by
  cases r with
  | fault f vs => cases h
  | ok first middle ws₁ =>
    rw [bind] at h
    cases hnext : next first middle with
    | fault f vs =>
      rw [hnext] at h
      cases h
    | ok value' rest' ws₂ =>
      rw [hnext] at h
      cases h
      exact ⟨first, middle, ws₁, ws₂, rfl, hnext⟩

end Reading

/-! ## 2. One step of each reader -/

theorem skipBlanks_cons {c : Char} (h : isBlank c = false) (cs : List Char) :
    skipBlanks (c :: cs) = c :: cs :=
  List.dropWhile_cons_of_neg (by simp [h])

theorem skipBlanks_blank (cs : List Char) : skipBlanks (' ' :: cs) = skipBlanks cs := rfl

theorem startsName_cons {c : Char} {cs : List Char} (h : startsName (c :: cs) = true) :
    isNameStart c = true ∨ c = '-' ∨ c = '\\' := by
  by_cases hhyphen : c = '-'
  · exact .inr (.inl hhyphen)
  · rw [startsName, Bool.or_eq_true, Bool.and_eq_true, beq_iff_eq] at h
    · exact h.imp id fun h => .inr h.1
    · exact fun _ _ h _ => hhyphen h

/-- A text with which a compound can begin. -/
def Opens (cs : List Char) : Prop :=
  ∃ c rest, cs = c :: rest ∧ isBlank c = false ∧ c ≠ ',' ∧ signOf? c = none

theorem opens_of_startsName {cs : List Char} (h : startsName cs = true) : Opens cs := by
  cases cs with
  | nil => cases h
  | cons c cs =>
    have hstart := startsName_cons h
    refine ⟨c, cs, rfl, ?_, ?_, ?_⟩
    · -- No name starts with a blank, a comma or the sign of a combinator.
      by_contra hblank
      rw [Bool.not_eq_false, isBlank] at hblank
      simp only [Bool.or_eq_true, beq_iff_eq] at hblank
      rcases hblank with (((rfl | rfl) | rfl) | rfl) | rfl <;> exact absurd hstart (by decide)
    · rintro rfl
      exact absurd hstart (by decide)
    · rw [signOf?.eq_def]
      split
      · exact absurd hstart (by decide)
      · exact absurd hstart (by decide)
      · exact absurd hstart (by decide)
      · rfl

theorem Opens.skipBlanks {cs : List Char} (h : Opens cs) : skipBlanks cs = cs := by
  obtain ⟨c, rest, rfl, hblank, -, -⟩ := h
  exact skipBlanks_cons hblank rest

theorem Opens.readOperand {cs : List Char} (h : Opens cs) (total : Nat) :
    readOperand total cs = readCompound total cs := by
  obtain ⟨c, rest, rfl, -, hcomma, hsign⟩ := h
  rw [Selector.readOperand, if_neg (by simp [hcomma, hsign])]

theorem expectName_of_startsName {cs : List Char} (h : startsName cs = true) (total : Nat) :
    expectName total cs = .ok (String.ofList (readName cs).1) (readName cs).2 [] := by
  rw [expectName, if_pos h]
  rfl

theorem readSimples_of_none {total : Nat} {cs : List Char} (h : readSimple total cs = none) :
    readSimples total cs = .pure [] cs := by
  rw [readSimples.eq_def]
  split
  · rfl
  · next h' => rw [h] at h'; cases h'
  · next h' => rw [h] at h'; cases h'

theorem readSimples_of_some {total : Nat} {cs : List Char} {r : Reading Simple}
    (h : readSimple total cs = some r) :
    readSimples total cs =
      r.bind fun s rest => (readSimples total rest).bind fun ss rest => .pure (s :: ss) rest := by
  rw [readSimples.eq_def]
  split
  · next h' => rw [h] at h'; cases h'
  · next h' =>
    rw [h] at h'
    cases h'
    rfl
  · next h' =>
    rw [h] at h'
    cases h'
    rfl

/-- A condition announces itself by its first character, and what is behind it is read as the
character says. -/
theorem exists_of_readSimple {total : Nat} {cs : List Char} {r : Reading Simple}
    (h : readSimple total cs = some r) :
    ∃ ds, (cs = '#' :: ds ∧ r = (expectName total ds).bind fun name rest => .pure (.id name) rest) ∨
      (cs = '.' :: ds ∧ r = (expectName total ds).bind fun name rest => .pure (.class name) rest) ∨
      (cs = '[' :: ds ∧ r = (readAttribute total ds).bind fun test rest =>
        .pure (.attribute test) rest) ∨
      (cs = ':' :: ds ∧ r = readPseudo total ds) := by
  revert h
  fun_cases readSimple total cs with
  | case1 ds =>
    rintro ⟨⟩
    exact ⟨ds, .inl ⟨rfl, rfl⟩⟩
  | case2 ds =>
    rintro ⟨⟩
    exact ⟨ds, .inr (.inl ⟨rfl, rfl⟩)⟩
  | case3 ds =>
    rintro ⟨⟩
    exact ⟨ds, .inr (.inr (.inl ⟨rfl, rfl⟩))⟩
  | case4 ds =>
    rintro ⟨⟩
    exact ⟨ds, .inr (.inr (.inr ⟨rfl, rfl⟩))⟩
  | case5 => exact fun h => by cases h

theorem readSimple_eq_none_iff {total : Nat} {cs : List Char} :
    readSimple total cs = none ↔ ∀ c ∈ cs.head?, c ≠ '#' ∧ c ≠ '.' ∧ c ≠ '[' ∧ c ≠ ':' := by
  constructor
  · intro h c hc
    obtain ⟨ds, rfl⟩ := List.head?_eq_some_iff.1 hc
    refine ⟨?_, ?_, ?_, ?_⟩ <;> rintro rfl <;> cases h
  · intro h
    cases hread : readSimple total cs with
    | none => rfl
    | some r =>
      obtain ⟨ds, ⟨rfl, -⟩ | ⟨rfl, -⟩ | ⟨rfl, -⟩ | ⟨rfl, -⟩⟩ := exists_of_readSimple hread
      · exact absurd rfl (h '#' rfl).1
      · exact absurd rfl (h '.' rfl).2.1
      · exact absurd rfl (h '[' rfl).2.2.1
      · exact absurd rfl (h ':' rfl).2.2.2

/-- A text at which a compound cannot go on. -/
def Stops (cs : List Char) : Prop := ∀ c ∈ cs.head?, c = ' ' ∨ (signOf? c).isSome = true ∨ c = ','

theorem stops_nil : Stops [] := fun c hc => by cases hc

theorem stops_cons {c : Char} (h : c = ' ' ∨ (signOf? c).isSome = true ∨ c = ',') (cs : List Char) :
    Stops (c :: cs) := by
  intro d hd
  cases hd
  exact h

theorem eq_of_isSome_signOf? {c : Char} (h : (signOf? c).isSome = true) :
    c = '>' ∨ c = '+' ∨ c = '~' := by
  revert h
  fun_cases signOf? c with
  | case1 => exact fun _ => .inl rfl
  | case2 => exact fun _ => .inr (.inl rfl)
  | case3 => exact fun _ => .inr (.inr rfl)
  | case4 => exact fun h => by cases h

/-- What holds of each character that stops a compound. -/
theorem Stops.forall_head {cs : List Char} (h : Stops cs) {P : Char → Prop}
    (hP : P ' ' ∧ P '>' ∧ P '+' ∧ P '~' ∧ P ',') : ∀ c ∈ cs.head?, P c := by
  obtain ⟨hblank, hchild, hnext, hsubsequent, hcomma⟩ := hP
  intro c hc
  rcases h c hc with rfl | hsign | rfl
  · exact hblank
  · rcases eq_of_isSome_signOf? hsign with rfl | rfl | rfl
    · exact hchild
    · exact hnext
    · exact hsubsequent
  · exact hcomma

theorem Stops.readSimple {cs : List Char} (h : Stops cs) (total : Nat) :
    readSimple total cs = none := by
  cases cs with
  | nil => rfl
  | cons c cs =>
    exact h.forall_head (P := fun c => Selector.readSimple total (c :: cs) = none)
      ⟨rfl, rfl, rfl, rfl, rfl⟩ c rfl

theorem Stops.readName {cs : List Char} (h : Stops cs) : readName cs = ([], cs) :=
  readName_stop (h.forall_head (P := fun c => isNameChar c = false ∧ c ≠ '\\') (by decide))

theorem Stops.noDigitFirst {cs : List Char} (h : Stops cs) : NoDigitFirst cs :=
  h.forall_head (P := fun c => isHexDigit c = false) (by decide)

theorem Stops.readSimples {cs : List Char} (h : Stops cs) (total : Nat) :
    readSimples total cs = .pure [] cs :=
  readSimples_of_none (h.readSimple total)

/-! ## 3. Names and attributes behind their signs -/

/-- The name that pieces write is read up to what cannot belong to it. -/
theorem expectName_written {ps : List Piece} (hps : ∀ p ∈ ps, p.InName) {rest : List Char}
    (hstart : startsName (written ps ++ rest) = true)
    (hrest : endsInNumber ps = true → NoDigitFirst rest) (total : Nat) :
    expectName total (written ps ++ rest) =
      .ok (String.ofList (ps.map Piece.value ++ (readName (behind ps rest)).1))
        (readName (behind ps rest)).2 [] := by
  rw [expectName_of_startsName hstart, readName_written hps hrest]

theorem dropBlank_of_not_isBlank {c : Char} (h : isBlank c = false) (cs : List Char) :
    dropBlank (c :: cs) = c :: cs := by
  rw [dropBlank, if_neg (by simp [h])]

theorem behind_of_not_isBlank {c : Char} (h : isBlank c = false) (ps : List Piece)
    (cs : List Char) :
    behind ps (c :: cs) = c :: cs := by
  rw [behind, dropBlank_of_not_isBlank h, ite_self]

theorem expect_self (total : Nat) (c : Char) (cs : List Char) :
    expect total c (c :: cs) = .pure () cs := by
  rw [expect, if_pos (beq_self_eq_true c)]

/-- An operator begins with a sign at which a name ends. -/
theorem AttributeOperator.exists_symbol (op : AttributeOperator) :
    ∃ c cs, op.symbol.toList = c :: cs ∧
      isBlank c = false ∧ isNameChar c = false ∧ c ≠ '\\' ∧ isHexDigit c = false := by
  cases op with
  | equals => exact ⟨'=', [], by decide, by decide⟩
  | includes => exact ⟨'~', ['='], by decide, by decide⟩
  | dash => exact ⟨'|', ['='], by decide, by decide⟩
  | begins => exact ⟨'^', ['='], by decide, by decide⟩
  | ends => exact ⟨'$', ['='], by decide, by decide⟩
  | has => exact ⟨'*', ['='], by decide, by decide⟩

theorem readOperator_symbol (op : AttributeOperator) (total : Nat) (cs : List Char) :
    readOperator total (op.symbol.toList ++ cs) = .pure (some op) cs := by
  cases op <;> rfl

/-- A name that ends at a sign. -/
theorem expectName_ended {ps : List Piece} (hps : ∀ p ∈ ps, p.InName) {c : Char} {cs : List Char}
    (hstart : startsName (written ps ++ c :: cs) = true)
    (hc : isBlank c = false ∧ isNameChar c = false ∧ c ≠ '\\' ∧ isHexDigit c = false)
    (total : Nat) :
    expectName total (written ps ++ c :: cs) =
      .pure (String.ofList (ps.map Piece.value)) (c :: cs) := by
  have hname : readName (behind ps (c :: cs)) = ([], c :: cs) := by
    rw [behind_of_not_isBlank hc.1]
    apply readName_stop
    intro d hd
    cases hd
    exact ⟨hc.2.1, hc.2.2.1⟩
  rw [expectName_written hps hstart (fun _ => noDigitFirst_cons hc.2.2.2 cs), hname,
    List.append_nil]
  rfl

/-- An attribute alone is read as the condition that it is there. -/
theorem readAttribute_present {ps : List Piece} (hps : ∀ p ∈ ps, p.InName)
    (hstart : ∀ rest, startsName (written ps ++ rest) = true) (total : Nat) (rest : List Char) :
    readAttribute total (written ps ++ ']' :: rest) =
      .pure (.present (String.ofList (ps.map Piece.value))) rest := by
  rw [readAttribute, (opens_of_startsName (hstart _)).skipBlanks,
    expectName_ended hps (hstart _) (by decide), Reading.pure_bind, skipBlanks_cons (by decide)]
  rfl

/-- An attribute with its value in quotation marks is read as the comparison of the two. -/
theorem readAttribute_compare {ps qs : List Piece} (quote : Quote) (hps : ∀ p ∈ ps, p.InName)
    (hqs : ∀ q ∈ qs, q.InString quote) (hstart : ∀ rest, startsName (written ps ++ rest) = true)
    (op : AttributeOperator) (total : Nat) (rest : List Char) :
    readAttribute total
        (written ps ++ (op.symbol.toList ++ quote.char ::
          (written qs ++ quote.char :: ']' :: rest))) =
      .pure (.compare (String.ofList (ps.map Piece.value)) op (String.ofList (qs.map Piece.value)))
        rest := by
  have hvalue : readValue total (quote.char :: (written qs ++ quote.char :: ']' :: rest)) =
      .pure (String.ofList (qs.map Piece.value)) (']' :: rest) := by
    have hquoted : readQuoted total quote (written qs ++ quote.char :: ']' :: rest) =
        .pure (String.ofList (qs.map Piece.value)) (']' :: rest) := by
      rw [readQuoted, readString_written quote hqs]
    cases quote <;> exact hquoted
  -- No blanks stand between the parts, so skipping them changes nothing.
  have hskip : skipBlanks (quote.char :: (written qs ++ quote.char :: ']' :: rest)) =
      quote.char :: (written qs ++ quote.char :: ']' :: rest) :=
    skipBlanks_cons (by cases quote <;> decide) _
  have hoperator :=
    readOperator_symbol op total (quote.char :: (written qs ++ quote.char :: ']' :: rest))
  obtain ⟨c, cs, hsymbol, hc⟩ := op.exists_symbol
  rw [hsymbol, List.cons_append] at hoperator ⊢
  rw [readAttribute, (opens_of_startsName (hstart _)).skipBlanks,
    expectName_ended hps (hstart _) hc, Reading.pure_bind, skipBlanks_cons hc.1, hoperator,
    Reading.pure_bind]
  show (readValue total (skipBlanks _)).bind _ = _
  rw [hskip, hvalue, Reading.pure_bind, skipBlanks_cons (by decide), expect_self, Reading.pure_bind]

theorem readAttribute_written {ps qs : List Piece} (quote : Quote) (hps : ∀ p ∈ ps, p.InName)
    (hqs : ∀ q ∈ qs, q.InString quote) (hstart : ∀ rest, startsName (written ps ++ rest) = true)
    (total : Nat) (rest : List Char) :
    readAttribute total (written ps ++ '=' :: quote.char ::
        (written qs ++ quote.char :: ']' :: rest)) =
      .pure (.compare (String.ofList (ps.map Piece.value)) .equals
        (String.ofList (qs.map Piece.value))) rest :=
  readAttribute_compare quote hps hqs hstart .equals total rest

/-! ## 4. Whole selectors -/

/-- A chain of compounds from left to right, which the reader of selectors begins to read
behind blanks. -/
def readLinked (total : Nat) (cs : List Char) : Reading Complex :=
  (readCompound total cs).bind fun first rest =>
    (readChain total rest).bind fun links rest => .pure (.ofLinks first links) rest

theorem Opens.readComplex {cs : List Char} (h : Opens cs) (total : Nat) :
    readComplex total cs = readLinked total cs := by
  obtain ⟨c, rest, rfl, hblank, hcomma, -⟩ := h
  rw [Selector.readComplex]
  simp only [skipBlanks_cons hblank]
  rw [if_neg (by simp [hcomma])]
  rfl

theorem readChain_nil (total : Nat) : readChain total [] = .pure [] [] := by
  rw [readChain.eq_def]
  rfl

/-- A list is its first selector with, behind a comma, the list of the others. -/
theorem readSelectors_eq (total : Nat) (cs : List Char) :
    readSelectors total cs = (readComplex total cs).bind fun s rest =>
      match rest with
      | [] => .pure [s] []
      | c :: more =>
        if c == ',' then (readSelectors total more).bind fun l rest => .pure (s :: l) rest
        else .fail (faultAt total (c :: more)) := by
  rw [readSelectors.eq_def]
  split
  · next h =>
    rw [h]
    rfl
  · next h =>
    rw [h]
    simp [Reading.bind, Reading.pure, Reading.after]
  · next s c more ws h =>
    rw [h]
    show _ = (if c == ',' then (readSelectors total more).bind fun l rest => .pure (s :: l) rest
      else .fail (faultAt total (c :: more)) : Reading Selectors).after ws
    split
    · rfl
    · simp [Reading.fail, Reading.after]

theorem readSelectors_of_fault {total : Nat} {cs : List Char} {f : Fault} {ws : List Warning}
    (h : readComplex total cs = .fault f ws) : readSelectors total cs = .fault f ws := by
  rw [readSelectors_eq, h]
  rfl

/-- The last selector of a list. -/
theorem readSelectors_of_end {total : Nat} {cs : List Char} {s : Complex} {ws : List Warning}
    (h : readComplex total cs = .ok s [] ws) : readSelectors total cs = .ok [s] [] ws := by
  rw [readSelectors_eq, h]
  simp [Reading.bind, Reading.pure, Reading.after]

theorem readSelectors_last {total : Nat} {cs : List Char} {s : Complex}
    (h : readComplex total cs = .pure s []) :
    readSelectors total cs = .pure [s] [] := readSelectors_of_end h

/-- A selector with a comma and more selectors behind it. -/
theorem readSelectors_of_comma {total : Nat} {cs rest : List Char} {s : Complex} {ws : List Warning}
    (h : readComplex total cs = .ok s (',' :: rest) ws) :
    readSelectors total cs =
      ((readSelectors total rest).bind fun l rest => .pure (s :: l) rest).after ws := by
  rw [readSelectors_eq, h]
  rfl

theorem readSelectors_comma {total : Nat} {cs rest : List Char} {s : Complex}
    (h : readComplex total cs = .pure s (',' :: rest)) :
    readSelectors total cs = (readSelectors total rest).bind fun l rest => .pure (s :: l) rest :=
  (readSelectors_of_comma h).trans (Reading.after_nil _)

theorem parse_eq_ok {text : String} {l : Selectors} :
    parse text = .ok l ↔
      ∃ rest ws, readSelectors text.toList.length text.toList = .ok l rest ws := by
  rw [parse, read]
  cases readSelectors text.toList.length text.toList with
  | ok l' rest ws =>
    constructor
    · intro h
      cases h
      exact ⟨rest, ws, rfl⟩
    · rintro ⟨_, _, heq⟩
      cases heq
      rfl
  | fault f ws =>
    constructor
    · exact fun h => by cases h
    · rintro ⟨_, _, heq⟩
      cases heq

/-- A text at whose first selector there is a fault. -/
theorem parse_of_readLinked_fault {cs : List Char} (hopens : Opens cs) {f : Fault}
    {ws : List Warning} (h : ∀ total, readLinked total cs = .fault f ws) :
    parse (String.ofList cs) = .error f := by
  have hread := fun total => readSelectors_of_fault ((hopens.readComplex total).trans (h total))
  rw [parse, read, String.toList_ofList, hread]

/-- A text that is read to its end as one complex selector. -/
theorem parse_of_readLinked {cs : List Char} (hopens : Opens cs) {s : Complex}
    (h : ∀ total, readLinked total cs = .pure s []) : parse (String.ofList cs) = .ok [s] := by
  -- Nothing is left behind the selector, so there is no comma that another one could follow.
  have hread := fun total => readSelectors_last ((hopens.readComplex total).trans (h total))
  rw [parse, read, String.toList_ofList, hread]
  rfl

/-- A text that is one complex selector was read as such at its beginning. -/
theorem readLinked_of_parse {text : String} (hopens : Opens text.toList) {s : Complex}
    (h : parse text = .ok [s]) :
    ∃ rest ws, readLinked text.toList.length text.toList = .ok s rest ws := by
  obtain ⟨rest, ws, hlist⟩ := parse_eq_ok.1 h
  rw [readSelectors_eq, hopens.readComplex] at hlist
  obtain ⟨s', more, vs, us, hread, hnext⟩ := Reading.bind_eq_ok hlist
  -- The text ends behind the selector, or a comma follows; one selector came out, so it is
  -- the first.
  cases more with
  | nil =>
    cases hnext
    exact ⟨_, _, hread⟩
  | cons c more =>
    simp only at hnext
    split at hnext
    · obtain ⟨l, left, _, _, -, heq⟩ := Reading.bind_eq_ok hnext
      cases heq
      exact ⟨_, _, hread⟩
    · cases hnext

theorem readLinked_lone {total : Nat} {cs : List Char} {c : Compound}
    (h : readCompound total cs = .pure c []) : readLinked total cs = .pure ⟨c, []⟩ [] := by
  rw [readLinked, h, Reading.pure_bind, readChain_nil]
  rfl

/-- A compound that announces itself by a sign is read condition by condition. -/
theorem readCompound_of_readSimple {total : Nat} {cs : List Char} {r : Reading Simple}
    (hhead : readHead cs = ([], cs)) (h : readSimple total cs = some r) :
    readCompound total cs =
      r.bind fun s rest => (readSimples total rest).bind fun ss rest => .pure (s :: ss) rest := by
  rw [readCompound, hhead, readSimples_of_some h, Reading.bind_assoc]
  congr 1
  funext s rest
  rw [Reading.bind_assoc]
  rfl

/-! ## 5. Escaped texts -/

/-- Guarding adds no character that stands as it is. -/
theorem plain_mem_of_mem_guardPieces {c : Char} {ps : List Piece} (h : .plain c ∈ guardPieces ps) :
    .plain c ∈ ps := by
  revert h
  fun_cases guardPieces ps with
  | case1 d qs hd =>
    intro h
    rw [List.mem_cons] at h ⊢
    exact h.elim (fun h => by cases h) .inr
  | case2 d qs hd => exact id
  | case3 d qs hnot hd =>
    intro h
    rw [List.mem_cons] at h ⊢
    exact h.elim (fun h => by cases h) .inr
  | case4 d qs hnot hd => exact id
  | case5 => exact id

/-- A text that is escaped as a name is taken for one, unless it is empty or a hyphen that stands as
it is. -/
theorem startsName_escaped {style : EscapeStyle} (hstyle : style.identifier = true)
    {us : List CodeUnit} (hempty : (decodeUnits us).map withoutNull ≠ [])
    (hhyphen : (decodeUnits us).map withoutNull ≠ ['-'] ∨ style.everything = true)
    (rest : List Char) :
    startsName (written (style.escaped us) ++ rest) = true := by
  have hvalue := style.map_value_escaped us
  have hguard : style.escaped us = guardPieces (style.pieces us) := by
    rw [EscapeStyle.escaped, if_pos hstyle]
  rw [hguard] at hvalue ⊢
  apply startsName_written (EscapeStyle.inName_pieces hstyle us)
  · intro h
    rw [h] at hvalue
    exact hempty hvalue.symm
  · intro h
    rcases hhyphen with hhyphen | hall
    · rw [h] at hvalue
      exact hhyphen hvalue.symm
    · -- With everything escaped the hyphen has a backslash, so it is no lone hyphen any more.
      have hmem : .plain '-' ∈ style.pieces us :=
        plain_mem_of_mem_guardPieces (h ▸ List.mem_singleton_self _)
      exact style.forall_pieces (P := fun p => p ≠ .plain '-')
        (fun u => EscapeStyle.piece_ne_plain hall u '-') (fun _ _ h => by cases h) us _ hmem rfl

theorem readHead_of_not_startsName {c : Char} (hstar : c ≠ '*') {cs : List Char}
    (h : startsName (c :: cs) = false) : readHead (c :: cs) = ([], c :: cs) := by
  rw [readHead, if_neg (by simp [h])]
  rintro _ ⟨⟩
  exact hstar rfl

/-- A name to the end of the text. -/
theorem expectName_escaped {style : EscapeStyle} (hstyle : style.identifier = true)
    {us : List CodeUnit} (hempty : (decodeUnits us).map withoutNull ≠ [])
    (hhyphen : (decodeUnits us).map withoutNull ≠ ['-'] ∨ style.everything = true) (total : Nat) :
    expectName total (written (style.escaped us)) =
      .ok (String.ofList ((decodeUnits us).map withoutNull)) [] [] := by
  have hstart := startsName_escaped hstyle hempty hhyphen []
  have hbehind : behind (style.escaped us) [] = [] := by
    rw [behind, dropBlank, ite_self]
  have hread := expectName_written (EscapeStyle.inName_escaped hstyle us) hstart
    (fun _ => fun c hc => by cases hc) total
  rw [hbehind, readName, List.append_nil, List.append_nil, style.map_value_escaped] at hread
  exact hread

theorem parse_escaped_name {style : EscapeStyle} (hstyle : style.identifier = true)
    {us : List CodeUnit} (hempty : (decodeUnits us).map withoutNull ≠ [])
    (hhyphen : (decodeUnits us).map withoutNull ≠ ['-'] ∨ style.everything = true) :
    parse ("#" ++ escapeUnits style us) =
      .ok [⟨[.id (String.ofList ((decodeUnits us).map withoutNull))], []⟩] := by
  have htext : "#" ++ escapeUnits style us = String.ofList ('#' :: written (style.escaped us)) := by
    rw [escapeUnits_eq, hstyle, ← String.toList_inj]
    simp
  rw [htext]
  apply parse_of_readLinked ⟨'#', _, rfl, by decide, by decide, rfl⟩
  intro total
  apply readLinked_lone
  rw [readCompound_of_readSimple (readHead_of_not_startsName (by decide) rfl) rfl,
    expectName_escaped hstyle hempty hhyphen, Reading.ok_bind, Reading.pure_bind,
    stops_nil.readSimples, Reading.pure_bind]

/-- A text between two marks of its style. -/
def EscapeStyle.between (style : EscapeStyle) (text : String) : String :=
  String.singleton style.quote.char ++ text ++ String.singleton style.quote.char

theorem parse_escaped_string {style : EscapeStyle} (hstyle : style.identifier = false)
    (us : List CodeUnit) :
    parse ("[x=" ++
        (if style.wrap then escapeUnits style us else style.between (escapeUnits style us)) ++
        "]") =
      .ok [⟨[.attribute (.compare "x" .equals
        (String.ofList ((decodeUnits us).map withoutNull)))], []⟩] := by
  have hbetween :
      (if style.wrap then escapeUnits style us else style.between (escapeUnits style us)) =
        String.ofList (style.quote.char :: (written (style.escaped us) ++ [style.quote.char])) := by
    rw [escapeUnits_eq, hstyle]
    cases style.wrap with
    | true => rfl
    | false =>
      rw [← String.toList_inj]
      simp [EscapeStyle.between]
  -- The `x` is a name of one piece, and so the whole text is an attribute that is written.
  have htext :
      "[x=" ++
          (if style.wrap then escapeUnits style us else style.between (escapeUnits style us)) ++
          "]" =
        String.ofList ('[' :: (written [.plain 'x'] ++ '=' :: style.quote.char ::
          (written (style.escaped us) ++ style.quote.char :: [']']))) := by
    rw [hbetween, ← String.toList_inj]
    simp [written]
  rw [htext]
  apply parse_of_readLinked ⟨'[', _, rfl, by decide, by decide, rfl⟩
  intro total
  apply readLinked_lone
  have hname : ∀ p ∈ [Piece.plain 'x'], p.InName := by
    intro p hp
    rw [List.mem_singleton] at hp
    subst hp
    exact ⟨⟨by decide, by decide⟩, fun c hc => by cases hc; decide⟩
  rw [readCompound_of_readSimple (readHead_of_not_startsName (by decide) rfl) rfl,
    readAttribute_written style.quote hname (EscapeStyle.inString_escaped style hstyle us)
    (fun _ => rfl), Reading.pure_bind, Reading.pure_bind, stops_nil.readSimples, Reading.pure_bind,
    style.map_value_escaped]
  rfl

theorem isPrintable_of_mem_written {ps : List Piece} (hps : ∀ p ∈ ps, p.Sound) {c : Char}
    (hc : c ∈ written ps) : isPrintable c = true := by
  induction ps with
  | nil => cases hc
  | cons p ps ih =>
    have hp := hps p (.head ps)
    have htail : c ∈ written ps → isPrintable c = true := ih fun p h => hps p (.tail _ h)
    cases p with
    | plain d =>
      rcases List.mem_cons.1 hc with rfl | hc
      · exact hp.1
      · exact htail hc
    | sign d =>
      rcases List.mem_cons.1 hc with rfl | hc
      · decide
      · rcases List.mem_cons.1 hc with rfl | hc
        · exact hp.1
        · exact htail hc
    | number n =>
      rcases List.mem_cons.1 hc with rfl | hc
      · decide
      · rcases List.mem_append.1 hc with hc | hc
        · exact isPrintable_of_isHexDigit (isHexDigit_of_mem_hexCapitals hc)
        · rw [spaced] at hc
          split at hc
          · rcases List.mem_cons.1 hc with rfl | hc
            · decide
            · exact htail hc
          · exact htail hc

theorem isPrintable_of_mem_escapeUnits (style : EscapeStyle) (us : List CodeUnit) {c : Char}
    (hc : c ∈ (escapeUnits style us).toList) : isPrintable c = true := by
  have hwritten : c ∈ written (style.escaped us) → isPrintable c = true :=
    isPrintable_of_mem_written (style.sound_escaped us)
  rw [escapeUnits_eq, String.toList_ofList] at hc
  split at hc
  · rw [List.mem_append, List.mem_cons, List.mem_singleton] at hc
    rcases hc with (rfl | hc) | rfl
    · exact isPrintable_quote style.quote
    · exact hwritten hc
    · exact isPrintable_quote style.quote
  · exact hwritten hc

/-- **The reader undoes the escaper.** Whatever is escaped and however, the result is
printable ASCII and stands for the text: behind `#` for an id, and as the value of an
attribute for a string. -/
theorem escapeUnits_read_back (style : EscapeStyle) (us : List CodeUnit) :
    let text := String.ofList ((decodeUnits us).map withoutNull)
    let out := escapeUnits style us
    (∀ c ∈ out.toList, isPrintable c = true) ∧
      (style.identifier = true → text ≠ "" → (text ≠ "-" ∨ style.everything = true) →
        parse ("#" ++ out) = .ok [⟨[.id text], []⟩]) ∧
      (style.identifier = false →
        parse ("[x=" ++ (if style.wrap then out else style.between out) ++ "]") =
          .ok [⟨[.attribute (.compare "x" .equals text)], []⟩]) := by
  intro text out
  refine ⟨fun c hc => isPrintable_of_mem_escapeUnits style us hc, ?_,
    fun h => parse_escaped_string h us⟩
  intro hstyle hempty hhyphen
  apply parse_escaped_name hstyle
  · intro h
    apply hempty
    rw [show text = String.ofList ((decodeUnits us).map withoutNull) from rfl, h]
  · refine hhyphen.imp_left fun hne h => hne ?_
    rw [show text = String.ofList ((decodeUnits us).map withoutNull) from rfl, h]

/-- A digit in front, half of a pair and U+0000, once as a name and once as a string. -/
theorem escapeUnits_read_back_broken_pair :
    let text := String.ofList ((decodeUnits [0x31, 0xD83D, 0x00]).map withoutNull)
    (EscapeStyle.name.identifier = true ∧ text ≠ "" ∧
        (text ≠ "-" ∨ EscapeStyle.name.everything = true) ∧
        parse ("#" ++ escapeUnits .name [0x31, 0xD83D, 0x00]) = .ok [⟨[.id text], []⟩]) ∧
      (EscapeStyle.string .double).identifier = false ∧
        parse ("[x=" ++ (EscapeStyle.string .double).between
            (escapeUnits (.string .double) [0x31, 0xD83D, 0x00]) ++ "]") =
          .ok [⟨[.attribute (.compare "x" .equals text)], []⟩] := by
  have hempty : String.ofList ((decodeUnits [0x31, 0xD83D, 0x00]).map withoutNull) ≠ "" := by decide
  have hhyphen : String.ofList ((decodeUnits [0x31, 0xD83D, 0x00]).map withoutNull) ≠ "-" := by
    decide
  have hname := (escapeUnits_read_back .name [0x31, 0xD83D, 0x00]).2.1 rfl hempty (.inl hhyphen)
  have hstring := (escapeUnits_read_back (.string .double) [0x31, 0xD83D, 0x00]).2.2 rfl
  exact ⟨⟨rfl, hempty, .inl hhyphen, hname⟩, rfl, hstring⟩

end UniqueSelector.Selector
