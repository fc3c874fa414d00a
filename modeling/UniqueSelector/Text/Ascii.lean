/-!
# Ascii — blanks, case and words

Markup and selectors agree on three rules that look at ASCII only: which characters are blank, which
letters are the same but for their case, and how a text splits into words.
-/

namespace UniqueSelector

/-! ## 1. Blanks -/

/-- Space, tab, line feed, form feed and carriage return. -/
def isBlank (c : Char) : Bool :=
  c == ' ' || c == '\t' || c == '\n' || c == '\x0c' || c == '\r'

/-- Blanks at the front are skipped. -/
def skipBlanks (cs : List Char) : List Char := cs.dropWhile isBlank

theorem skipBlanks_length_le (cs : List Char) : (skipBlanks cs).length ≤ cs.length :=
  (List.dropWhile_suffix isBlank).length_le

/-- A text of blanks alone, the empty text included. -/
def allBlank (s : String) : Bool := s.toList.all isBlank

/-! ## 2. Case -/

/-- ASCII capitals become small letters; every other character stays. -/
def asciiLower (s : String) : String := String.ofList (s.toList.map Char.toLower)

@[simp] theorem toList_asciiLower (s : String) :
    (asciiLower s).toList = s.toList.map Char.toLower := by
  simp [asciiLower]

/-- Equality up to the case of ASCII letters. -/
def sameLetters (a b : String) : Bool := asciiLower a == asciiLower b

/-! ## 3. Words -/

/-- The maximal runs of characters that are not blank, from left to right. -/
def splitWords : List Char → List (List Char)
  | [] => []
  | [c] => if isBlank c then [] else [[c]]
  | c :: d :: cs =>
    if isBlank c then splitWords (d :: cs)
    else if isBlank d then [c] :: splitWords cs
    else match splitWords (d :: cs) with
      | [] => [[c]]
      | w :: ws => (c :: w) :: ws

/-- The words of a text, in order, repetitions kept. -/
def words (s : String) : List String := (splitWords s.toList).map String.ofList

/-- The words of a text are made of its characters, and of none that is blank. -/
theorem mem_of_mem_splitWords {cs w : List Char} (h : w ∈ splitWords cs) {c : Char} (hc : c ∈ w) :
    c ∈ cs ∧ isBlank c = false := by
  -- A word grows by the character in front of it, so each case looks at the first word and at
  -- the others.
  fun_induction splitWords cs generalizing w with
  | case1 => cases h
  | case2 d hd => cases h
  | case3 d hd =>
    rw [List.mem_singleton] at h
    rw [h, List.mem_singleton] at hc
    simp_all
  | case4 d d' cs hd ih => exact (ih h hc).imp_left (.tail _)
  | case5 d d' cs hd hd' ih =>
    rcases List.mem_cons.1 h with rfl | h
    · rw [List.mem_singleton] at hc
      simp_all
    · exact (ih h hc).imp_left fun hc => .tail _ (.tail _ hc)
  | case6 d d' cs hd hd' hwords ih =>
    rw [List.mem_singleton] at h
    rw [h, List.mem_singleton] at hc
    simp_all
  | case7 d d' cs hd hd' v vs hwords ih =>
    rcases List.mem_cons.1 h with rfl | h
    · rcases List.mem_cons.1 hc with rfl | hc
      · exact ⟨.head _, by simpa using hd⟩
      · exact (ih (hwords ▸ .head _) hc).imp_left (.tail _)
    · exact (ih (hwords ▸ .tail _ h) hc).imp_left (.tail _)

/-! ## 4. Pieces of a text -/

/-- Whether the characters of `part` stand next to each other somewhere in the text. -/
def hasPart (part : List Char) : List Char → Bool
  | [] => part.isEmpty
  | c :: cs => part.isPrefixOf (c :: cs) || hasPart part cs

/-- What follows `word` at the front of the text, up to the case of ASCII letters. -/
def dropLetters? : List Char → List Char → Option (List Char)
  | [], cs => some cs
  | _ :: _, [] => none
  | w :: ws, c :: cs => if w.toLower == c.toLower then dropLetters? ws cs else none

theorem dropLetters?_length {word cs rest : List Char} (h : dropLetters? word cs = some rest) :
    rest.length + word.length = cs.length := by
  fun_induction dropLetters? word cs with
  | case1 cs => simp_all
  | case2 => simp at h
  | case3 w ws c cs _ ih => simp [← ih h]; omega
  | case4 => simp at h

theorem dropLetters?_suffix {word cs rest : List Char} (h : dropLetters? word cs = some rest) :
    rest <:+ cs := by
  fun_induction dropLetters? word cs with
  | case1 cs =>
    cases h
    exact List.suffix_refl _
  | case2 => cases h
  | case3 w ws c cs _ ih => exact (ih h).trans (List.suffix_cons c cs)
  | case4 => cases h

end UniqueSelector
