import UniqueSelector.Selector.CompoundReader

/-!
# List reader — selectors from text

Compounds are joined into chains by combinators, and chains into a list by commas. The list has to
reach to the end of the text.
-/

namespace UniqueSelector.Selector

/-! ## 1. Chains -/

/-- The combinators that have a sign of their own. -/
def signOf? : Char → Option Combinator
  | '>' => some .child
  | '+' => some .nextSibling
  | '~' => some .subsequentSibling
  | _ => none

/-- The combinator behind a compound; none at a comma or at the end. Blanks may stand on both sides
of a sign, and by themselves are the combinator for descendants. -/
def readCombinator (total : Nat) (cs : List Char) : Reading (Option Combinator) :=
  match skipBlanks cs with
  | [] => .pure none []
  | c :: rest =>
    if c == ',' then .pure none (c :: rest)
    else match signOf? c with
      | some k => .pure (some k) (skipBlanks rest)
      | none =>
        -- No sign, but blanks were skipped on the way here.
        if (c :: rest).length < cs.length then .pure (some .descendant) (c :: rest)
        else .fail (faultAt total (c :: rest))

/-- A compound behind a combinator; a comma or a second sign cannot stand there. -/
def readOperand (total : Nat) (cs : List Char) : Reading Compound :=
  match cs with
  | [] => .fail .unexpectedEnd
  | c :: rest =>
    if c == ',' || (signOf? c).isSome then .fail (faultAt total (c :: rest))
    else readCompound total (c :: rest)

/-- A combinator with its compound; none where the chain ends. -/
def readLink (total : Nat) (cs : List Char) : Reading (Option (Combinator × Compound)) :=
  (readCombinator total cs).bind fun
    | none, rest => .pure none rest
    | some k, rest => (readOperand total rest).bind fun c rest => .pure (some (k, c)) rest

theorem within_readCombinator (total : Nat) (cs : List Char) :
    (readCombinator total cs).Within cs.length := by
  have hskip := skipBlanks_length_le cs
  unfold readCombinator
  split
  · exact Reading.within_pure (Nat.zero_le _)
  · next c rest heq =>
    rw [heq] at hskip
    split
    · exact Reading.within_pure hskip
    · split
      · refine Reading.within_pure (Nat.le_trans (skipBlanks_length_le rest) ?_)
        simp only [List.length_cons] at hskip; omega
      · split
        · exact Reading.within_pure hskip
        · trivial

theorem readOperand_length_lt {total : Nat} {cs rest : List Char} {c : Compound} {ws : List Warning}
    (h : readOperand total cs = .ok c rest ws) : rest.length < cs.length := by
  unfold readOperand at h
  split at h
  · simp [Reading.fail] at h
  · split at h
    · simp [Reading.fail] at h
    · exact readCompound_length_lt h

theorem within_readOperand (total : Nat) (cs : List Char) :
    (readOperand total cs).Within cs.length := by
  cases h : readOperand total cs with
  | ok c rest ws => exact Nat.le_of_lt (readOperand_length_lt h)
  | fault f ws => trivial

theorem within_readLink (total : Nat) (cs : List Char) : (readLink total cs).Within cs.length := by
  refine Reading.within_bind (within_readCombinator total cs) fun k rest h => ?_
  cases k with
  | none => exact Reading.within_pure h
  | some k =>
    exact Reading.within_bind ((within_readOperand total rest).mono h) fun _ _ h =>
      Reading.within_pure h

theorem readLink_length_lt {total : Nat} {cs rest : List Char} {link : Combinator × Compound}
    {ws : List Warning} (h : readLink total cs = .ok (some link) rest ws) :
    rest.length < cs.length := by
  unfold readLink at h
  have hle := within_readCombinator total cs
  cases hk : readCombinator total cs with
  | fault f warnings => simp [hk, Reading.bind] at h
  | ok k middle warnings =>
    rw [hk] at hle
    cases k with
    | none => simp [hk, Reading.bind, Reading.pure, Reading.after] at h
    | some k =>
      cases hc : readOperand total middle with
      | fault f warnings => simp [hk, hc, Reading.bind, Reading.after] at h
      | ok c last warnings =>
        have hlt := readOperand_length_lt hc
        simp only [hk, hc, Reading.bind, Reading.pure, Reading.after, Reading.ok.injEq] at h
        rw [← h.2.1]
        exact Nat.lt_of_lt_of_le hlt hle

/-- The combinators with their compounds, from left to right. -/
def readChain (total : Nat) (cs : List Char) : Reading (List (Combinator × Compound)) :=
  match _taken : readLink total cs with
  | .fault f warnings => .fault f warnings
  | .ok none rest warnings => .ok [] rest warnings
  | .ok (some link) rest warnings =>
    ((readChain total rest).bind fun links rest => .pure (link :: links) rest).after warnings
termination_by cs.length
decreasing_by exact readLink_length_lt _taken

theorem within_readChain (total : Nat) (cs : List Char) :
    (readChain total cs).Within cs.length := by
  fun_induction readChain total cs with
  | case1 => trivial
  | case2 cs rest ws taken =>
    have := within_readLink total cs
    rwa [taken] at this
  | case3 cs link rest ws taken ih =>
    refine (Reading.within_after ws).2 (Reading.within_bind ?_ fun _ _ h => Reading.within_pure h)
    exact ih.mono (Nat.le_of_lt (readLink_length_lt taken))

/-! ## 2. Complex selectors and lists -/

/-- One more compound on the right: it is the subject, and what was the subject follows outward. -/
def Complex.extend (s : Complex) (link : Combinator × Compound) : Complex :=
  ⟨link.2, (link.1, s.subject) :: s.chain⟩

/-- A complex selector from its compounds as they stand from left to right. -/
def Complex.ofLinks (first : Compound) (links : List (Combinator × Compound)) : Complex :=
  links.foldl Complex.extend ⟨first, []⟩

/-- A complex selector, up to a comma or the end. -/
def readComplex (total : Nat) (cs : List Char) : Reading Complex :=
  let cs := skipBlanks cs
  if cs.isEmpty || cs.head? == some ',' then .fail .empty
  else (readCompound total cs).bind fun first rest =>
    (readChain total rest).bind fun links rest => .pure (.ofLinks first links) rest

theorem within_readComplex (total : Nat) (cs : List Char) :
    (readComplex total cs).Within cs.length := by
  unfold readComplex
  simp only
  split
  · trivial
  · have hcompound : (readCompound total (skipBlanks cs)).Within (skipBlanks cs).length := by
      cases h : readCompound total (skipBlanks cs) with
      | ok c rest ws => exact Nat.le_of_lt (readCompound_length_lt h)
      | fault f ws => trivial
    refine Reading.within_bind (hcompound.mono (skipBlanks_length_le cs)) fun first rest h => ?_
    exact Reading.within_bind ((within_readChain total rest).mono h) fun _ _ h =>
      Reading.within_pure h

theorem readComplex_length_le {total : Nat} {cs rest : List Char} {s : Complex} {ws : List Warning}
    (h : readComplex total cs = .ok s rest ws) : rest.length ≤ cs.length := by
  have := within_readComplex total cs
  rwa [h] at this

/-- Complex selectors with commas between them, up to the end. -/
def readSelectors (total : Nat) (cs : List Char) : Reading Selectors :=
  match _taken : readComplex total cs with
  | .fault f warnings => .fault f warnings
  | .ok s [] warnings => .ok [s] [] warnings
  | .ok s (c :: rest) warnings =>
    if c == ',' then
      ((readSelectors total rest).bind fun l rest => .pure (s :: l) rest).after warnings
    else .fault (faultAt total (c :: rest)) warnings
termination_by cs.length
decreasing_by exact Nat.lt_of_lt_of_le (Nat.lt_succ_self _) (readComplex_length_le _taken)

/-! ## 3. Whole texts -/

def read (text : String) : Reading Selectors := readSelectors text.toList.length text.toList

/-- The selectors that a text writes, or its first fault. -/
def parse (text : String) : Except Fault Selectors :=
  match read text with
  | .ok l _ _ => .ok l
  | .fault f _ => .error f

/-- The warnings that reading a text raises, in order, also when it ends in a fault. -/
def warnings (text : String) : List Warning :=
  match read text with
  | .ok _ _ ws => ws
  | .fault _ ws => ws

end UniqueSelector.Selector
