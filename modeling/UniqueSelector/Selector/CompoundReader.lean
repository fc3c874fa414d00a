import UniqueSelector.Selector.Reading
import UniqueSelector.Selector.Formula
import UniqueSelector.Selector.Name

/-!
# Compound reader — the conditions on one element

Names, conditions on attributes, pseudo-classes, and compounds of them. Throughout, `total` is the
length of the whole text, so that a fault can name its place.
-/

namespace UniqueSelector.Selector

/-! ## 1. Names and single characters -/

def expectName (total : Nat) (cs : List Char) : Reading String :=
  if startsName cs then .pure (String.ofList (readName cs).1) (readName cs).2
  else .fail (faultAt total cs)

def expect (total : Nat) (c : Char) : List Char → Reading Unit
  | [] => .fail .unexpectedEnd
  | d :: ds => if d == c then .pure () ds else .fail (faultAt total (d :: ds))

theorem readName_length_le (cs : List Char) : (readName cs).2.length ≤ cs.length := by
  fun_induction readName cs with
  | case1 => exact Nat.le_refl _
  | case2 c cs _ r ih => exact Nat.le_succ_of_le ih
  | case3 => exact Nat.le_refl _
  | case4 => exact Nat.le_refl _
  | case5 c _ _ d ds _ e r ih =>
    have : e.2.length ≤ ds.length := readEscape_length_le d ds
    exact Nat.le_succ_of_le (Nat.le_succ_of_le (Nat.le_trans ih this))
  | case6 => exact Nat.le_refl _

theorem readName_length_lt {cs : List Char} (h : startsName cs = true) :
    (readName cs).2.length < cs.length := by
  unfold readName
  split
  · simp [startsName] at h
  · next c cs =>
    split
    · have := readName_length_le cs
      simp only [List.length_cons]; omega
    · next hc =>
      split
      · next hslash =>
        have hc' : c = '\\' := by simpa using hslash
        subst hc'
        cases cs with
        | nil => simp [startsName, escapes, isNameStart] at h
        | cons d ds =>
          have hd : isLineBreak d = false := by simpa [startsName, escapes, isNameStart] using h
          have := readName_length_le (readEscape (d :: ds)).2
          have := readEscape_length_le d ds
          simp only [hd, Bool.false_eq_true, if_false, List.length_cons]
          omega
      · next hslash =>
        exfalso
        cases cs with
        | nil => simp_all [startsName, isNameChar]
        | cons d ds =>
          by_cases hyphen : c = '-'
          · subst hyphen; simp [isNameChar] at hc
          · unfold startsName at h
            split at h <;> simp_all [isNameChar]

/-! ## 2. Conditions on attributes -/

/-- The operators that an equals sign completes. -/
def operatorOf? : Char → Option AttributeOperator
  | '~' => some .includes
  | '|' => some .dash
  | '^' => some .begins
  | '$' => some .ends
  | '*' => some .has
  | _ => none

/-- The operator behind the name of an attribute; none if the bracket closes. -/
def readOperator (total : Nat) : List Char → Reading (Option AttributeOperator)
  | [] => .fail .unexpectedEnd
  | c :: cs =>
    if c == ']' then .pure none cs
    else if c == '=' then .pure (some .equals) cs
    else match operatorOf? c with
      | some op => (expect total '=' cs).bind fun _ rest => .pure (some op) rest
      | none => .fail (faultAt total (c :: cs))

def readQuoted (total : Nat) (quote : Quote) (cs : List Char) : Reading String :=
  match readString quote.char cs with
  | some (value, rest) => .pure (String.ofList value) rest
  | none => .fail (.unterminatedString (total - cs.length))

/-- The value of an attribute: a string or a name. -/
def readValue (total : Nat) : List Char → Reading String
  | '"' :: cs => readQuoted total .double cs
  | '\'' :: cs => readQuoted total .single cs
  | cs => expectName total cs

/-- A condition on an attribute behind its opening bracket. -/
def readAttribute (total : Nat) (cs : List Char) : Reading AttributeTest :=
  (expectName total (skipBlanks cs)).bind fun name rest =>
    (readOperator total (skipBlanks rest)).bind fun
      | none, rest => .pure (.present name) rest
      | some op, rest =>
        (readValue total (skipBlanks rest)).bind fun value rest =>
          (expect total ']' (skipBlanks rest)).bind fun _ rest =>
            .pure (.compare name op value) rest

/-! ## 3. Pseudo-classes -/

def plainPseudo? (name : String) : Option Pseudo :=
  [("root", Pseudo.root), ("empty", .empty), ("first-child", .firstChild),
    ("last-child", .lastChild), ("only-child", .onlyChild), ("first-of-type", .firstOfType),
    ("last-of-type", .lastOfType)].lookup name

def countingPseudo? (name : String) : Option (Nth → Pseudo) :=
  [("nth-child", Pseudo.nthChild), ("nth-last-child", .nthLastChild)].lookup name

/-- The pseudo-class of a name and an argument; none if it is not known. -/
def pseudoOf (name : String) : Option (List Char) → Except Fault (Option Pseudo)
  | none => .ok (plainPseudo? name)
  | some argument =>
    match countingPseudo? name with
    | none => .ok none
    | some pseudo =>
      match Nth.read? argument with
      | some nth => .ok (some (pseudo nth))
      | none => .error (.invalidNth (String.ofList argument))

/-- What stands in parentheses, if a parenthesis opens here. -/
def readArgument : List Char → Reading (Option (List Char))
  | '(' :: cs =>
    match readParenthesized 0 cs with
    | some (text, rest) => .pure (some text) rest
    | none => .fail .unexpectedEnd
  | cs => .pure none cs

/-- A name with its argument behind one colon. -/
def readPseudoClass (total : Nat) (cs : List Char) : Reading Simple :=
  (expectName total cs).bind fun name rest =>
    (readArgument rest).bind fun argument rest =>
      match pseudoOf (asciiLower name) argument with
      | .error f => .fail f
      | .ok (some p) => .pure (.pseudo p) rest
      -- It is read with a warning, and then fits nothing.
      | .ok none => .ok .never rest [unsupportedPseudoClass (asciiLower name)]

/-- A name with its argument behind two colons: a pseudo-element, which is no element. -/
def readPseudoElement (total : Nat) (cs : List Char) : Reading Simple :=
  (expectName total cs).bind fun _ rest =>
    (readArgument rest).bind fun _ rest => .pure .never rest

/-- What stands behind a colon. -/
def readPseudo (total : Nat) : List Char → Reading Simple
  | ':' :: cs => readPseudoElement total cs
  | cs => readPseudoClass total cs

/-! ## 4. Compounds -/

/-- A simple selector that announces itself by its first character; none if no such one
begins here. -/
def readSimple (total : Nat) : List Char → Option (Reading Simple)
  | '#' :: cs => some ((expectName total cs).bind fun name rest => .pure (.id name) rest)
  | '.' :: cs => some ((expectName total cs).bind fun name rest => .pure (.class name) rest)
  | '[' :: cs => some ((readAttribute total cs).bind fun test rest => .pure (.attribute test) rest)
  | ':' :: cs => some (readPseudo total cs)
  | _ => none

/-- The star or the name of a type at the front of a compound, if it begins so. -/
def readHead (cs : List Char) : Compound × List Char :=
  match cs with
  | '*' :: cs => ([.universal], cs)
  | cs =>
    if startsName cs then ([.type (String.ofList (readName cs).1)], (readName cs).2) else ([], cs)

/-! ### What these readers leave -/

theorem within_expectName (total : Nat) (cs : List Char) :
    (expectName total cs).Within cs.length := by
  unfold expectName
  split
  · exact Reading.within_pure (readName_length_le cs)
  · trivial

theorem within_expect (total : Nat) (c : Char) (cs : List Char) :
    (expect total c cs).Within cs.length := by
  unfold expect
  split
  · trivial
  · split
    · exact Reading.within_pure (Nat.le_succ _)
    · trivial

theorem within_readOperator (total : Nat) (cs : List Char) :
    (readOperator total cs).Within cs.length := by
  unfold readOperator
  split
  · trivial
  · next c cs =>
    split
    · exact Reading.within_pure (Nat.le_succ _)
    · split
      · exact Reading.within_pure (Nat.le_succ _)
      · split
        · exact Reading.within_bind (within_expect total '=' cs) fun _ rest h =>
            Reading.within_pure (Nat.le_succ_of_le h)
        · trivial

theorem readString_length_le {quote : Char} {cs value rest : List Char}
    (h : readString quote cs = some (value, rest)) : rest.length ≤ cs.length := by
  fun_induction readString quote cs generalizing value rest with
  | case1 => simp at h
  | case2 c cs _ => simp_all
  | case3 => simp at h
  | case4 => simp at h
  | case5 c _ _ _ d ds _ ih =>
    have := ih h
    simp only [List.length_cons]; omega
  | case6 c _ _ _ d ds _ e =>
    rename_i ih
    obtain ⟨⟨v, r⟩, hr, heq⟩ := Option.map_eq_some_iff.1 h
    have := ih hr
    have : e.2.length ≤ ds.length := readEscape_length_le d ds
    simp only [Prod.mk.injEq] at heq
    simp only [List.length_cons, ← heq.2]; omega
  | case7 c cs _ _ _ ih =>
    obtain ⟨⟨v, r⟩, hr, heq⟩ := Option.map_eq_some_iff.1 h
    have := ih hr
    simp only [Prod.mk.injEq] at heq
    simp only [List.length_cons, ← heq.2]; omega

theorem within_readQuoted (total : Nat) (quote : Quote) (cs : List Char) :
    (readQuoted total quote cs).Within cs.length := by
  unfold readQuoted
  split
  · next h => exact Reading.within_pure (readString_length_le h)
  · trivial

theorem within_readValue (total : Nat) (cs : List Char) :
    (readValue total cs).Within cs.length := by
  unfold readValue
  split
  · exact (within_readQuoted total _ _).mono (Nat.le_succ _)
  · exact (within_readQuoted total _ _).mono (Nat.le_succ _)
  · exact within_expectName total cs

theorem within_readAttribute (total : Nat) (cs : List Char) :
    (readAttribute total cs).Within cs.length := by
  refine Reading.within_bind ((within_expectName total _).mono (skipBlanks_length_le cs))
    fun name rest h => ?_
  refine Reading.within_bind
    ((within_readOperator total _).mono (Nat.le_trans (skipBlanks_length_le rest) h))
    fun op rest h => ?_
  cases op with
  | none => exact Reading.within_pure h
  | some op =>
    refine Reading.within_bind
      ((within_readValue total _).mono (Nat.le_trans (skipBlanks_length_le rest) h))
      fun value rest h => ?_
    exact Reading.within_bind
      ((within_expect total _ _).mono (Nat.le_trans (skipBlanks_length_le rest) h)) fun _ rest h =>
        Reading.within_pure h

theorem readParenthesized_length_le {depth : Nat} {cs text rest : List Char}
    (h : readParenthesized depth cs = some (text, rest)) : rest.length ≤ cs.length := by
  fun_induction readParenthesized depth cs generalizing text rest with
  | case1 => simp at h
  | case2 c cs _ => simp_all
  | case3 c cs _ depth ih =>
    obtain ⟨⟨v, r⟩, hr, heq⟩ := Option.map_eq_some_iff.1 h
    have := ih hr
    simp only [Prod.mk.injEq] at heq
    simp only [List.length_cons, ← heq.2]; omega
  | case4 depth c cs _ ih =>
    obtain ⟨⟨v, r⟩, hr, heq⟩ := Option.map_eq_some_iff.1 h
    have := ih hr
    simp only [Prod.mk.injEq] at heq
    simp only [List.length_cons, ← heq.2]; omega

theorem within_readArgument (cs : List Char) : (readArgument cs).Within cs.length := by
  unfold readArgument
  split
  · split
    · next h => exact Reading.within_pure (Nat.le_succ_of_le (readParenthesized_length_le h))
    · trivial
  · exact Reading.within_pure (Nat.le_refl _)

theorem within_readPseudoClass (total : Nat) (cs : List Char) :
    (readPseudoClass total cs).Within cs.length := by
  refine Reading.within_bind (within_expectName total cs) fun name rest h => ?_
  refine Reading.within_bind ((within_readArgument rest).mono h) fun argument rest h => ?_
  split
  · trivial
  · exact Reading.within_pure h
  · exact h

theorem within_readPseudo (total : Nat) (cs : List Char) :
    (readPseudo total cs).Within cs.length := by
  unfold readPseudo
  split
  · next cs =>
    refine Reading.within_bind ((within_expectName total cs).mono (Nat.le_succ _))
      fun name rest h => ?_
    exact Reading.within_bind ((within_readArgument rest).mono h) fun _ rest h =>
      Reading.within_pure h
  · exact within_readPseudoClass total cs

theorem readSimple_length_lt {total : Nat} {cs rest : List Char} {s : Simple} {ws : List Warning}
    (h : readSimple total cs = some (.ok s rest ws)) : rest.length < cs.length := by
  have key : ∀ {r : Reading Simple} {ds : List Char}, r.Within ds.length → r = .ok s rest ws →
      rest.length < ds.length + 1 := fun hr heq => by
    rw [heq] at hr
    exact Nat.lt_succ_of_le hr
  unfold readSimple at h
  split at h
  · exact key (Reading.within_bind (within_expectName total _) fun _ _ h => Reading.within_pure h)
      (Option.some.inj h)
  · exact key (Reading.within_bind (within_expectName total _) fun _ _ h => Reading.within_pure h)
      (Option.some.inj h)
  · exact key (Reading.within_bind (within_readAttribute total _) fun _ _ h =>
      Reading.within_pure h)
      (Option.some.inj h)
  · exact key (within_readPseudo total _) (Option.some.inj h)
  · simp at h

/-- The simple selectors that announce themselves, one behind the other. -/
def readSimples (total : Nat) (cs : List Char) : Reading Compound :=
  match _taken : readSimple total cs with
  | none => .pure [] cs
  | some (.fault f warnings) => .fault f warnings
  | some (.ok s rest warnings) =>
    ((readSimples total rest).bind fun ss rest => .pure (s :: ss) rest).after warnings
termination_by cs.length
decreasing_by exact readSimple_length_lt _taken

/-- A compound with at least one condition has to stand here. -/
def readCompound (total : Nat) (cs : List Char) : Reading Compound :=
  (readSimples total (readHead cs).2).bind fun ss rest =>
    if ((readHead cs).1 ++ ss).isEmpty then .fail (faultAt total rest)
    else .pure ((readHead cs).1 ++ ss) rest

theorem within_readSimples (total : Nat) (cs : List Char) :
    (readSimples total cs).Within cs.length := by
  fun_induction readSimples total cs with
  | case1 => exact Reading.within_pure (Nat.le_refl _)
  | case2 => trivial
  | case3 cs s rest ws taken ih =>
    refine (Reading.within_after ws).2 (Reading.within_bind ?_ fun _ _ h => Reading.within_pure h)
    exact ih.mono (Nat.le_of_lt (readSimple_length_lt taken))

theorem readHead_length_le (cs : List Char) : (readHead cs).2.length ≤ cs.length := by
  unfold readHead
  split
  · exact Nat.le_succ _
  · split
    · exact readName_length_le cs
    · exact Nat.le_refl _

theorem readHead_length_lt {cs : List Char} (h : (readHead cs).1 ≠ []) :
    (readHead cs).2.length < cs.length := by
  unfold readHead at h ⊢
  split
  · exact Nat.lt_succ_self _
  · split
    · next hname => exact readName_length_lt hname
    · simp_all

/-- Something was read only if something was taken. -/
theorem readSimples_length_lt {total : Nat} {cs rest : List Char} {ss : Compound}
    {ws : List Warning} (h : readSimples total cs = .ok ss rest ws) (hss : ss ≠ []) :
    rest.length < cs.length := by
  unfold readSimples at h
  split at h
  · simp only [Reading.pure, Reading.ok.injEq] at h
    exact absurd h.1.symm hss
  · simp at h
  · next s middle warnings taken =>
    have hlt := readSimple_length_lt taken
    have hbind : ((readSimples total middle).bind fun ss rest => .pure (s :: ss) rest).Within
        middle.length :=
      Reading.within_bind (within_readSimples total middle) fun _ _ h => Reading.within_pure h
    have hle := (Reading.within_after warnings).2 hbind
    rw [h] at hle
    exact Nat.lt_of_le_of_lt hle hlt

theorem readCompound_length_lt {total : Nat} {cs rest : List Char} {c : Compound}
    {ws : List Warning} (h : readCompound total cs = .ok c rest ws) : rest.length < cs.length := by
  unfold readCompound at h
  cases hs : readSimples total (readHead cs).2 with
  | fault f warnings => simp [hs, Reading.bind] at h
  | ok ss middle warnings =>
    simp only [hs, Reading.bind] at h
    split at h
    · simp [Reading.fail, Reading.after] at h
    · next hne =>
      simp only [Reading.pure, Reading.after, Reading.ok.injEq] at h
      have hle := within_readSimples total (readHead cs).2
      rw [hs] at hle
      have hhead := readHead_length_le cs
      rw [← h.2.1]
      by_cases hempty : (readHead cs).1 = []
      · have hss : ss ≠ [] := by simpa [hempty] using hne
        exact Nat.lt_of_lt_of_le (readSimples_length_lt hs hss) hhead
      · exact Nat.lt_of_le_of_lt hle (readHead_length_lt hempty)

end UniqueSelector.Selector
