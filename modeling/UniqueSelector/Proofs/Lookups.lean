import UniqueSelector.Markup.Lexer.Scanner

/-!
# Lookups — a text addressed by number, and what is left of it

What the scanner looks up by number stands at the front of the text from that position on. Whatever
is found ends inside of the text, so what comes after it can be looked up as well.
-/

namespace UniqueSelector.Markup

section lookups

variable {input : Array Char} {position : Nat}

/-! ## 1. One character -/

theorem getElem?_eq_head? (input : Array Char) (position : Nat) :
    input[position]? = (input.toList.drop position).head? := by
  rw [List.head?_drop, Array.getElem?_toList]

theorem getElem?_add (input : Array Char) (position n : Nat) :
    input[position + n]? = ((input.toList.drop position).drop n).head? := by
  rw [List.drop_drop, getElem?_eq_head?]

theorem drop_of_some {c : Char} (h : input[position]? = some c) :
    input.toList.drop position = c :: input.toList.drop (position + 1) := by
  obtain ⟨hlt, rfl⟩ := Array.getElem?_eq_some_iff.1 h
  exact List.drop_eq_getElem_cons (by simpa using hlt)

theorem drop_of_none (h : input[position]? = none) : input.toList.drop position = [] := by
  rw [List.drop_eq_nil_iff, Array.length_toList]
  exact Array.getElem?_eq_none_iff.1 h

theorem lt_size_of_some {c : Char} (h : input[position]? = some c) : position < input.size :=
  (Array.getElem?_eq_some_iff.1 h).1

/-! ## 2. Words and declarations -/

/-- A word that stands somewhere ends inside of the text. -/
theorem add_length_le_of_standsAt {same : Char → Char → Bool} {word : List Char}
    (hle : position ≤ input.size) (h : standsAt input same position word = true) :
    position + word.length ≤ input.size := by
  induction word generalizing position with
  | nil => exact hle
  | cons w ws ih =>
    unfold standsAt at h
    split at h
    · cases h
    · next c hc =>
      have := ih (lt_size_of_some hc) (Bool.and_eq_true _ _ ▸ h).2
      simp only [List.length_cons]
      omega

theorem standsAt_eq (input : Array Char) (position : Nat) (word : List Char) :
    standsAt input (· == ·) position word = word.isPrefixOf (input.toList.drop position) := by
  induction word generalizing position with
  | nil => rfl
  | cons w ws ih =>
    unfold standsAt
    split
    · next h => rw [drop_of_none h]; rfl
    · next c h => rw [drop_of_some h, ih, List.isPrefixOf_cons_cons, Bool.beq_comm]

/-- A word that stands at a position is the front of the text from there on. -/
theorem eq_append_drop_of_standsAt {word : List Char}
    (h : standsAt input (· == ·) position word = true) :
    input.toList.drop position = word ++ input.toList.drop (position + word.length) := by
  rw [standsAt_eq, List.isPrefixOf_iff_prefix] at h
  rw [← List.drop_drop]
  exact List.prefix_iff_eq_append.1 h |>.symm

theorem dropLetters?_drop (input : Array Char) (position : Nat) (word : List Char) :
    dropLetters? word (input.toList.drop position) =
      if standsAt input (fun c w => c.toLower == w.toLower) position word then
        some (input.toList.drop (position + word.length))
      else none := by
  induction word generalizing position with
  | nil => rfl
  | cons w ws ih =>
    unfold standsAt
    split
    · next h => rw [drop_of_none h]; rfl
    · next c h =>
      rw [drop_of_some h, dropLetters?, ih, List.length_cons, Bool.beq_comm, Nat.add_assoc,
        Nat.add_comm 1]
      by_cases hsame : (c.toLower == w.toLower) = true
      · simp only [hsame, if_true, Bool.true_and]
      · simp only [hsame, Bool.false_eq_true, if_false, Bool.false_and]

/-- What a declaration says, and where it ends: behind the first closing bracket, or with
the text. -/
structure Declared (input : Array Char) (position : Nat) (raw : List Char) (behind : Nat) :
    Prop where
  raw_eq : raw = (input.toList.drop position).takeWhile (· != '>')
  drop_eq : input.toList.drop behind = ((input.toList.drop position).dropWhile (· != '>')).tail
  forward : position ≤ behind
  within : behind ≤ input.size

theorem declared_takeDeclaration (hle : position ≤ input.size) :
    Declared input position (takeDeclaration input position).1
      (takeDeclaration input position).2 := by
  fun_induction takeDeclaration input position with
  | case1 position h hclose =>
    have hdrop := drop_of_some (Array.getElem?_eq_getElem h)
    rw [eq_of_beq hclose] at hdrop
    refine ⟨?_, ?_, Nat.le_succ _, h⟩
    · rw [hdrop]; rfl
    · rw [hdrop]; rfl
  | case2 position h hopen raw behind heq ih =>
    obtain ⟨hraw, hbehind, hforward, hwithin⟩ := heq ▸ ih h
    have hdrop := drop_of_some (Array.getElem?_eq_getElem h)
    refine ⟨?_, ?_, by dsimp only; omega, hwithin⟩
    · rw [hdrop, List.takeWhile_cons_of_pos (by simpa using hopen), ← hraw]
    · rw [hdrop, List.dropWhile_cons_of_pos (by simpa using hopen), ← hbehind]
  | case3 position h =>
    have hdrop : input.toList.drop position = [] := by
      rw [List.drop_eq_nil_iff, Array.length_toList]
      omega
    exact ⟨by rw [hdrop]; rfl, by rw [hdrop]; rfl, Nat.le_refl _, hle⟩

/-! ## 3. References -/

/-- A reference that is looked up by number is the one at the front of what is left. -/
structure Referenced.Meets (input : Array Char) (position : Nat) (r : Referenced) (t : Resolved) :
    Prop where
  character : r.character = t.character
  remark : r.remark = t.remark
  rest : input.toList.drop r.position = t.rest
  forward : position ≤ r.position
  within : r.position ≤ input.size

theorem slice?_of_le (h : position ≤ input.size) :
    slice? input position = some (input.toList.drop position) := if_pos h

/-- The positions behind digits and a semicolon, if there is one. -/
theorem drop_dropSemicolon (input : Array Char) (position : Nat) :
    input.toList.drop (if input[position]? == some ';' then position + 1 else position) =
      dropSemicolon (input.toList.drop position) := by
  by_cases h : input[position]? = some ';'
  · simp only [h, BEq.rfl, if_true]
    rw [drop_of_some h]
    rfl
  · have hne : ¬(input[position]? == some ';') = true := by simpa using h
    rw [if_neg hne]
    unfold dropSemicolon
    split
    · next cs heq =>
      rw [getElem?_eq_head?, heq] at h
      exact absurd rfl h
    · rfl

theorem drop_length_takeWhile (p : Char → Bool) (cs : List Char) :
    cs.drop (cs.takeWhile p).length = cs.dropWhile p := by
  calc cs.drop (cs.takeWhile p).length
    _ = (cs.takeWhile p ++ cs.dropWhile p).drop (cs.takeWhile p).length := by
      rw [List.takeWhile_append_dropWhile]
    _ = cs.dropWhile p := List.drop_left

theorem Referenced.meets_ampersand (h : position ≤ input.size) :
    Referenced.Meets input position ⟨'&', position, none⟩
      (.ampersand (input.toList.drop position)) :=
  ⟨rfl, rfl, rfl, Nat.le_refl _, h⟩

theorem meets_resolveDigits {start : Nat} (base : Nat) (isDigit : Char → Bool)
    (hle : start ≤ position) (hin : position ≤ input.size) :
    (referenceOfDigits input start position base
        ((input.toList.drop position).takeWhile isDigit)).Meets input start
      (resolveDigits base isDigit (input.toList.drop start) (input.toList.drop position)) := by
  have hlength := (List.takeWhile_prefix isDigit (l := input.toList.drop position)).length_le
  simp only [List.length_drop, Array.length_toList] at hlength
  unfold referenceOfDigits resolveDigits
  dsimp only
  split
  · exact Referenced.meets_ampersand (Nat.le_trans hle hin)
  · refine ⟨rfl, rfl, ?_, ?_, ?_⟩
    · dsimp only
      rw [drop_dropSemicolon, ← List.drop_drop, drop_length_takeWhile]
    · dsimp only
      split <;> omega
    · dsimp only
      split
      · next hsemicolon => exact lt_size_of_some (eq_of_beq hsemicolon)
      · omega

theorem meets_resolveNumber (h : input[position]? = some '#') :
    ∃ r, numericReference? input position = some r ∧
      r.Meets input position (resolveNumber (input.toList.drop position)
        (input.toList.drop (position + 1))) := by
  have hlt := lt_size_of_some h
  unfold numericReference?
  dsimp only
  by_cases hex : (input[position + 1]? == some 'x' || input[position + 1]? == some 'X') = true
  · have hx : input[position + 1]? = some 'x' ∨ input[position + 1]? = some 'X' := by
      simpa using hex
    have hin : position + 2 ≤ input.size := hx.elim lt_size_of_some lt_size_of_some
    have hresolve : resolveNumber (input.toList.drop position) (input.toList.drop (position + 1)) =
        resolveDigits 16 isHexDigit (input.toList.drop position)
        (input.toList.drop (position + 2)) := by
      rcases hx with hx | hx
      · rw [drop_of_some hx]; rfl
      · rw [drop_of_some hx]; rfl
    rw [if_pos hex, if_pos hex, if_pos hex, slice?_of_le hin, hresolve]
    exact ⟨_, rfl, meets_resolveDigits 16 isHexDigit (by omega) hin⟩
  · have hresolve : resolveNumber (input.toList.drop position) (input.toList.drop (position + 1)) =
        resolveDigits 10 Char.isDigit (input.toList.drop position)
        (input.toList.drop (position + 1)) := by
      unfold resolveNumber
      split
      · next heq => simp [getElem?_eq_head?, heq] at hex
      · next heq => simp [getElem?_eq_head?, heq] at hex
      · rfl
    rw [if_neg hex, if_neg hex, if_neg hex, slice?_of_le hlt, hresolve]
    exact ⟨_, rfl, meets_resolveDigits 10 Char.isDigit (Nat.le_succ _) hlt⟩

theorem meets_resolveName (inAttribute : Bool) (hin : position ≤ input.size)
    (h : input[position]? ≠ some '#') :
    ∃ r, reference? input inAttribute position = some r ∧
      r.Meets input position (resolveName inAttribute (input.toList.drop position)) := by
  have hname : ((input.toList.drop position).takeWhile Char.isAlphanum).take 32 =
      referenceName (input.toList.drop position) := List.take_takeWhile
  have hlength : (referenceName (input.toList.drop position)).length ≤ input.size - position := by
    have hprefix :=
      (List.takeWhile_prefix Char.isAlphanum (l := (input.toList.drop position).take 32)).length_le
    simp only [List.length_take, List.length_drop, Array.length_toList] at hprefix
    unfold referenceName
    omega
  have hclosed := getElem?_add input position (referenceName (input.toList.drop position)).length
  unfold reference?
  rw [if_neg (by simpa using h), slice?_of_le hin]
  simp only [Option.bind_eq_bind, Option.bind_some, hname]
  unfold resolveName
  generalize referenceName (input.toList.drop position) = name at *
  dsimp only
  rw [← hclosed]
  split
  · exact ⟨_, rfl, Referenced.meets_ampersand hin⟩
  · cases namedReferences.find? (·.name.toList == name) with
    | none => exact ⟨_, rfl, rfl, rfl, rfl, Nat.le_refl _, hin⟩
    | some known =>
      dsimp only
      split
      · next hsemicolon =>
        have hlt := lt_size_of_some (eq_of_beq hsemicolon)
        refine ⟨_, rfl, rfl, rfl, ?_, by dsimp only; omega, hlt⟩
        dsimp only
        rw [List.tail_drop, List.drop_drop, Nat.add_assoc]
      · split
        · refine ⟨_, rfl, rfl, rfl, ?_, by dsimp only; omega, by dsimp only; omega⟩
          dsimp only
          rw [List.drop_drop]
        · exact ⟨_, rfl, Referenced.meets_ampersand hin⟩

/-- **A reference is found without looking behind the end**, and it is the one at the front of what
is left. -/
theorem meets_resolve (inAttribute : Bool) (hin : position ≤ input.size) :
    ∃ r, reference? input inAttribute position = some r ∧
      r.Meets input position (resolve inAttribute (input.toList.drop position)) := by
  by_cases h : input[position]? = some '#'
  · have hresolve : resolve inAttribute (input.toList.drop position) =
        resolveNumber (input.toList.drop position) (input.toList.drop (position + 1)) := by
      rw [drop_of_some h]
      rfl
    have hreference : reference? input inAttribute position = numericReference? input position := by
      unfold reference?
      rw [if_pos (by simpa using h)]
    rw [hresolve, hreference]
    exact meets_resolveNumber h
  · have hresolve : resolve inAttribute (input.toList.drop position) =
        resolveName inAttribute (input.toList.drop position) := by
      unfold resolve
      split
      · next heq => exact absurd (by rw [getElem?_eq_head?, heq]; rfl) h
      · rfl
    rw [hresolve]
    exact meets_resolveName inAttribute hin h

end lookups

end UniqueSelector.Markup
