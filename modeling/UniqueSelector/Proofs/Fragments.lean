import UniqueSelector.Proofs.Readers
import UniqueSelector.Synthesis.Level

/-!
# Fragments — one element in the text of a selector

A fragment names an element by one of its features and may add its place among the siblings. The
reader of compounds takes a fragment for the conditions that it stands for. Only its end is open: a
name that breaks off with a number takes one blank from what follows, and goes on behind it.
-/

namespace UniqueSelector

open Selector

/-! ## 1. Names that can be written -/

/-- The empty text and the lone hyphen are no names. -/
def Writable (name : String) : Prop := name ≠ "" ∧ name ≠ "-"

instance (name : String) : Decidable (Writable name) := inferInstanceAs (Decidable (_ ∧ _))

theorem withoutNull_eq_hyphen {c : Char} (h : withoutNull c = '-') : c = '-' := by
  rw [withoutNull] at h
  split at h
  · exact absurd h (by decide)
  · exact h

theorem startsName_namePieces {name : String} (h : Writable name) (rest : List Char) :
    startsName (written (namePieces name) ++ rest) = true := by
  apply startsName_escaped rfl
  · rw [decodeUnits_codeUnits]
    intro hempty
    rw [List.map_eq_nil_iff, String.toList_eq_nil_iff] at hempty
    exact h.1 hempty
  · left
    rw [decodeUnits_codeUnits]
    intro hhyphen
    obtain ⟨c, cs, hname, hc, hcs⟩ := List.map_eq_cons_iff.1 hhyphen
    rw [List.map_eq_nil_iff] at hcs
    apply h.2
    rw [← String.toList_inj, hname, hcs, withoutNull_eq_hyphen hc]
    rfl

/-- What can be written at all is what the candidates of an element take for a name. -/
theorem writtenName?_eq (name : String) :
    writtenName? name = if Writable name then some (escapeName name) else none := by
  by_cases h : Writable name
  · -- What starts a name is neither empty nor a lone hyphen.
    have hstart := startsName_namePieces h []
    rw [List.append_nil, ← toList_escapeName] at hstart
    have hempty : escapeName name ≠ "" := fun h => by
      rw [h] at hstart
      exact absurd hstart (by decide)
    have hhyphen : escapeName name ≠ "-" := fun h => by
      rw [h] at hstart
      exact absurd hstart (by decide)
    rw [if_pos h, writtenName?]
    simp [hempty, hhyphen]
  · rw [if_neg h]
    rw [Writable, Classical.not_and_iff_not_or_not, not_not, not_not] at h
    rcases h with rfl | rfl <;> decide

/-! ## 2. Features -/

/-- What a fragment says of its element. -/
inductive Feature where
  | id (name : String)
  | attr (name value : String)
  | className (name : String)
  | tag (name : String)
  | any
deriving DecidableEq

namespace Feature

def text : Feature → List Char
  | .id name => '#' :: written (namePieces name)
  | .attr name value =>
    '[' :: (written (namePieces name) ++ '=' :: '"' ::
      (written (stringPieces .double value) ++ ['"', ']']))
  | .className name => '.' :: written (namePieces name)
  | .tag name => written (namePieces name)
  | .any => ['*']

/-- The names in the feature can be written. -/
def Sound : Feature → Prop
  | .id name | .attr name _ | .className name | .tag name => Writable name
  | .any => True

/-- What it costs to say so. -/
def cost : Feature → Cost
  | .id _ => Cost.forId
  | .attr _ _ => Cost.forAttribute
  | .className _ => Cost.forClass
  | .tag _ => Cost.forTag
  | .any => Cost.forAny

/-- The pieces that the text ends with, if it ends with a name. -/
def tail : Feature → List Piece
  | .id name | .className name | .tag name => namePieces name
  | .attr _ _ | .any => []

/-- The condition that is read if `more` is taken for a part of the name. -/
def simpleWith (more : List Char) : Feature → Simple
  | .id name => .id (readable name ++ String.ofList more)
  | .attr name value => .attribute (.compare (readable name) .equals (readable value))
  | .className name => .class (readable name ++ String.ofList more)
  | .tag name => .type (readable name ++ String.ofList more)
  | .any => .universal

/-- The condition that the feature stands for. -/
def simple (f : Feature) : Simple := f.simpleWith []

/-- What the reader takes for a part of the name, and what it leaves. -/
def after (f : Feature) (rest : List Char) : List Char × List Char :=
  match f with
  | .id name | .className name | .tag name => readName (behind (namePieces name) rest)
  | .attr _ _ | .any => ([], rest)

theorem after_eq {f : Feature} {rest : List Char}
    (h : readName (behind f.tail rest) = ([], behind f.tail rest)) :
    f.after rest = ([], behind f.tail rest) := by
  cases f with
  | id name => exact h
  | className name => exact h
  | tag name => exact h
  | attr name value => rfl
  | any => rfl

theorem ofList_value_append (name : String) (more : List Char) :
    String.ofList ((namePieces name).map Piece.value ++ more) =
      readable name ++ String.ofList more := by
  rw [String.ofList_append, map_value_namePieces]

theorem expectName_namePieces {name : String} (hname : Writable name) {rest : List Char}
    (hrest : endsInNumber (namePieces name) = true → NoDigitFirst rest) (total : Nat) :
    expectName total (written (namePieces name) ++ rest) =
      .ok (readable name ++ String.ofList (readName (behind (namePieces name) rest)).1)
        (readName (behind (namePieces name) rest)).2 [] := by
  rw [expectName_written (inName_namePieces name) (startsName_namePieces hname rest) hrest,
    ofList_value_append]

theorem readHead_of_startsName {cs : List Char} (h : startsName cs = true) :
    readHead cs = ([.type (String.ofList (readName cs).1)], (readName cs).2) := by
  cases cs with
  | nil => cases h
  | cons c cs =>
    have hstar : c ≠ '*' := by
      rintro rfl
      exact absurd (startsName_cons h) (by decide)
    rw [readHead, if_pos h]
    rintro _ ⟨⟩
    exact hstar rfl

theorem readCompound_of_readHead {total : Nat} {cs rest : List Char} {s : Simple}
    (h : readHead cs = ([s], rest)) :
    readCompound total cs = (readSimples total rest).bind fun ss rest => .pure (s :: ss) rest := by
  rw [readCompound, h]
  rfl

/-- **A feature is read as its condition**, and the compound goes on with what the name leaves. -/
theorem readCompound_text {f : Feature} (hf : f.Sound) {rest : List Char}
    (hrest : endsInNumber f.tail = true → NoDigitFirst rest) (total : Nat) :
    readCompound total (f.text ++ rest) =
      (readSimples total (f.after rest).2).bind fun ss last =>
        .pure (f.simpleWith (f.after rest).1 :: ss) last := by
  cases f with
  | id name =>
    rw [text, List.cons_append,
      readCompound_of_readSimple (readHead_of_not_startsName (by decide) rfl) rfl,
      expectName_namePieces hf hrest, Reading.ok_bind, Reading.pure_bind]
    rfl
  | className name =>
    rw [text, List.cons_append,
      readCompound_of_readSimple (readHead_of_not_startsName (by decide) rfl) rfl,
      expectName_namePieces hf hrest, Reading.ok_bind, Reading.pure_bind]
    rfl
  | attr name value =>
    have htext : (attr name value).text ++ rest =
        '[' :: (written (namePieces name) ++ '=' :: Quote.double.char ::
          (written (stringPieces .double value) ++ Quote.double.char :: ']' :: rest)) := by
      simp [text, Quote.char]
    rw [htext, readCompound_of_readSimple (readHead_of_not_startsName (by decide) rfl) rfl,
      readAttribute_written .double (inName_namePieces name) (inString_stringPieces .double value)
        (startsName_namePieces hf), Reading.pure_bind, Reading.pure_bind, map_value_namePieces,
      map_value_stringPieces]
    rfl
  | tag name =>
    apply readCompound_of_readHead
    rw [text, readHead_of_startsName (startsName_namePieces hf rest),
      readName_written (inName_namePieces name) hrest]
    show ([Simple.type (String.ofList ((namePieces name).map Piece.value ++ _))], _) = _
    rw [ofList_value_append]
    rfl
  | any => exact readCompound_of_readHead rfl

/-- A feature is taken for the beginning of a compound. -/
theorem opens_text {f : Feature} (hf : f.Sound) (rest : List Char) : Opens (f.text ++ rest) := by
  cases f with
  | id name => exact ⟨'#', _, rfl, by decide, by decide, rfl⟩
  | className name => exact ⟨'.', _, rfl, by decide, by decide, rfl⟩
  | attr name value => exact ⟨'[', _, rfl, by decide, by decide, rfl⟩
  | tag name => exact opens_of_startsName (startsName_namePieces hf rest)
  | any => exact ⟨'*', _, rfl, by decide, by decide, rfl⟩

end Feature

/-! ## 3. Places among siblings -/

theorem readName_append {ns : List Char} (hns : ∀ c ∈ ns, isNameChar c = true) (rest : List Char) :
    readName (ns ++ rest) = (ns ++ (readName rest).1, (readName rest).2) := by
  induction ns with
  | nil => rfl
  | cons c ns ih =>
    rw [List.cons_append, readName_cons (hns c (.head ns)), ih fun c h => hns c (.tail _ h)]
    rfl

theorem readParenthesized_append {cs : List Char} (hcs : ∀ c ∈ cs, c ≠ '(' ∧ c ≠ ')')
    (rest : List Char) :
    readParenthesized 0 (cs ++ ')' :: rest) = some (cs, rest) := by
  induction cs with
  | nil => rfl
  | cons c cs ih =>
    have hc := hcs c (.head cs)
    rw [List.cons_append, readParenthesized.eq_def]
    simp only [beq_iff_eq, hc.1, hc.2, if_false]
    rw [ih fun c h => hcs c (.tail _ h)]
    rfl

/-- The character stands for itself wherever a formula is read. -/
structure Inert (c : Char) : Prop where
  isBlank : isBlank c = false
  toLower : c.toLower = c
  ne_variable : c ≠ 'n'
  ne_odd : c ≠ 'o'
  ne_even : c ≠ 'e'
  ne_plus : c ≠ '+'
  ne_minus : c ≠ '-'
  ne_parenthesis : c ≠ '(' ∧ c ≠ ')'

theorem inert_of_mem_toDigits {n : Nat} {c : Char} (hc : c ∈ Nat.toDigits 10 n) : Inert c := by
  obtain ⟨d, hd, rfl⟩ := mem_toDigits (by decide) hc
  interval_cases d <;> constructor <;> decide

theorem int32?_toDigits (n : Nat) :
    int32? (Nat.toDigits 10 n) = if n < 2 ^ 31 then some (n : Int) else none := by
  have hinteger : integer? (Nat.toDigits 10 n) = some (n : Int) := by
    have hnatural := natural?_toDigits n
    have hdigits : ∀ c ∈ Nat.toDigits 10 n, Inert c := fun c => inert_of_mem_toDigits
    -- A sign in front would be taken off, but no digit is one.
    revert hnatural hdigits
    cases Nat.toDigits 10 n with
    | nil => exact fun h => by cases h
    | cons c cs =>
      intro hnatural hdigits
      have hc := hdigits c (.head cs)
      rw [integer?.eq_def]
      split
      · next h =>
        cases h
        exact absurd rfl hc.ne_plus
      · next h =>
        cases h
        exact absurd rfl hc.ne_minus
      · rw [hnatural]
        rfl
  rw [int32?, hinteger, Option.filter_some]
  by_cases h : n < 2 ^ 31
  · rw [if_pos h, if_pos]
    rw [Bool.and_eq_true, decide_eq_true_eq, decide_eq_true_eq]
    omega
  · rw [if_neg h, if_neg]
    rw [Bool.and_eq_true, decide_eq_true_eq, decide_eq_true_eq]
    omega

/-- A formula without the letter is no word but an offset. -/
theorem Selector.Nth.readCompact?_of_no_letter {w : List Char} (hne : w ≠ [])
    (hw : ∀ c ∈ w, c ≠ 'n' ∧ c ≠ 'o') :
    Nth.readCompact? w = (int32? w).map fun offset => ⟨0, offset⟩ := by
  have hdrop : w.dropWhile (· != 'n') = [] :=
    List.dropWhile_eq_nil_iff.2 fun c hc => bne_iff_ne.2 (hw c hc).1
  have hodd : w ≠ "odd".toList := fun h => (hw 'o' (h ▸ by decide)).2 rfl
  have heven : w ≠ "even".toList := fun h => (hw 'n' (h ▸ by decide)).1 rfl
  rw [Nth.readCompact?, if_neg (by simpa using hodd), if_neg (by simpa using heven),
    if_neg (by simpa using hne), hdrop]

/-- A formula that has neither blanks nor capitals is read as it stands. -/
theorem Selector.Nth.read?_of_forall {w : List Char}
    (hw : ∀ c ∈ w, isBlank c = false ∧ c.toLower = c) :
    Nth.read? w = Nth.readCompact? w := by
  have hfilter : w.filter (fun c => !isBlank c) = w :=
    List.filter_eq_self.2 fun c hc => by simp [(hw c hc).1]
  have hmap : w.map Char.toLower = w := by
    rw [List.map_congr_left fun c hc => (hw c hc).2]
    exact List.map_id _
  rw [Nth.read?, hfilter, hmap]

/-- The argument of a counting pseudo-class that is a mere number, which has to fit into 32 bits. -/
theorem Nth.read?_toDigits (n : Nat) :
    Nth.read? (Nat.toDigits 10 n) = if n < 2 ^ 31 then some ⟨0, n⟩ else none := by
  have hdigits : ∀ c ∈ Nat.toDigits 10 n, Inert c := fun c => inert_of_mem_toDigits
  have hletters : ∀ c ∈ Nat.toDigits 10 n, c ≠ 'n' ∧ c ≠ 'o' :=
    fun c hc => ⟨(hdigits c hc).ne_variable, (hdigits c hc).ne_odd⟩
  rw [Nth.read?_of_forall fun c hc => ⟨(hdigits c hc).isBlank, (hdigits c hc).toLower⟩,
    Nth.readCompact?_of_no_letter Nat.toDigits_ne_nil hletters, int32?_toDigits]
  split <;> rfl

/-- The name of the pseudo-class that counts the children. -/
def nthChildName : List Char := ['n', 't', 'h', '-', 'c', 'h', 'i', 'l', 'd']

theorem ofList_nthChildName : String.ofList nthChildName = "nth-child" := by decide

/-- The text of a place, if one is given. -/
def placeText : Option Nat → List Char
  | none => []
  | some i => ':' :: (nthChildName ++ '(' :: (Nat.toDigits 10 i ++ [')']))

/-- The condition on the place, if one is given. -/
def placeSimples : Option Nat → Compound
  | none => []
  | some i => [.pseudo (.nthChild ⟨0, i⟩)]

theorem expectName_nthChildName (total : Nat) (cs : List Char) :
    expectName total (nthChildName ++ '(' :: cs) = .ok "nth-child" ('(' :: cs) [] := by
  have hstop : readName ('(' :: cs) = ([], '(' :: cs) :=
    readName_stop fun c hc => by
      cases hc
      exact ⟨by decide, by decide⟩
  have hstart : startsName (nthChildName ++ '(' :: cs) = true := by
    rw [nthChildName, List.cons_append]
    exact startsName_of_isNameStart (by decide) _
  have hchars : ∀ c ∈ nthChildName, isNameChar c = true := List.all_eq_true.1 (by decide)
  rw [expectName_of_startsName hstart, readName_append hchars, hstop, List.append_nil,
    ofList_nthChildName]

theorem pseudoOf_nthChild (argument : List Char) :
    pseudoOf (asciiLower "nth-child") (some argument) =
      match Nth.read? argument with
      | some nth => .ok (some (.nthChild nth))
      | none => .error (.invalidNth (String.ofList argument)) := by
  have hlower : asciiLower "nth-child" = "nth-child" := by decide
  have hpseudo : countingPseudo? "nth-child" = some .nthChild := by
    rw [countingPseudo?, List.lookup_cons, beq_self_eq_true]
  cases hread : Nth.read? argument with
  | none => simp only [hlower, pseudoOf, hpseudo, hread]
  | some nth => simp only [hlower, pseudoOf, hpseudo, hread]

theorem readSimple_nthChild {argument : List Char} (h : ∀ c ∈ argument, c ≠ '(' ∧ c ≠ ')')
    (total : Nat) (rest : List Char) :
    readSimple total (':' :: (nthChildName ++ '(' :: (argument ++ ')' :: rest))) =
      some (match Nth.read? argument with
        | some nth => .pure (.pseudo (.nthChild nth)) rest
        | none => .fail (.invalidNth (String.ofList argument))) := by
  have hargument : readArgument ('(' :: (argument ++ ')' :: rest)) =
      .pure (some argument) rest := by
    rw [readArgument, readParenthesized_append h]
  show some (readPseudoClass total (nthChildName ++ '(' :: (argument ++ ')' :: rest))) = _
  rw [readPseudoClass, expectName_nthChildName, Reading.ok_bind, hargument, Reading.pure_bind,
    pseudoOf_nthChild]
  cases Nth.read? argument with
  | none => rfl
  | some nth => rfl

theorem readSimple_placeText (i total : Nat) (rest : List Char) :
    readSimple total (placeText (some i) ++ rest) =
      some (if i < 2 ^ 31 then .pure (.pseudo (.nthChild ⟨0, i⟩)) rest
        else .fail (.invalidNth (String.ofList (Nat.toDigits 10 i)))) := by
  have htext : placeText (some i) ++ rest =
      ':' :: (nthChildName ++ '(' :: (Nat.toDigits 10 i ++ ')' :: rest)) := by
    simp [placeText]
  rw [htext, readSimple_nthChild fun c hc => (inert_of_mem_toDigits hc).ne_parenthesis,
    Nth.read?_toDigits]
  by_cases h : i < 2 ^ 31
  · rw [if_pos h, if_pos h]
  · rw [if_neg h, if_neg h]

theorem readSimples_placeText {place : Option Nat} (hplace : ∀ i ∈ place, i < 2 ^ 31)
    {rest : List Char} (hrest : Stops rest) (total : Nat) :
    readSimples total (placeText place ++ rest) = .pure (placeSimples place) rest := by
  cases place with
  | none => exact hrest.readSimples total
  | some i =>
    rw [readSimples_of_some (readSimple_placeText i total rest), if_pos (hplace i rfl),
      Reading.pure_bind, hrest.readSimples, Reading.pure_bind]
    rfl

theorem opens_placeText (i : Nat) (rest : List Char) : Opens (placeText (some i) ++ rest) :=
  ⟨':', _, rfl, by decide, by decide, rfl⟩

/-- The colon is neither a blank nor a part of a name, so a feature ends in front of it. -/
theorem Feature.after_placeText (f : Feature) (i : Nat) (rest : List Char) :
    f.after (placeText (some i) ++ rest) = ([], placeText (some i) ++ rest) := by
  have hcolon : behind f.tail (placeText (some i) ++ rest) = placeText (some i) ++ rest :=
    behind_of_not_isBlank (by decide) _ _
  have hstop : readName (placeText (some i) ++ rest) = ([], placeText (some i) ++ rest) :=
    readName_stop fun c hc => by
      cases hc
      exact ⟨by decide, by decide⟩
  rw [← hcolon] at hstop
  rw [after_eq hstop, hcolon]

/-! ## 4. Fragments -/

/-- A feature of an element and, if it is given, its place among the siblings. -/
structure Fragment where
  feature : Feature
  place : Option Nat := none
deriving DecidableEq

namespace Fragment

def text (f : Fragment) : List Char := f.feature.text ++ placeText f.place

/-- The conditions that the fragment stands for. -/
def compound (f : Fragment) : Compound := f.feature.simple :: placeSimples f.place

def Sound (f : Fragment) : Prop := f.feature.Sound ∧ ∀ i ∈ f.place, i < 2 ^ 31

/-- The pieces that the text ends with, if it ends with a name. -/
def tail (f : Fragment) : List Piece := if f.place = none then f.feature.tail else []

theorem opens_text {f : Fragment} (hf : f.Sound) (rest : List Char) : Opens (f.text ++ rest) := by
  rw [text, List.append_assoc]
  exact Feature.opens_text hf.1 _

/-- **A fragment is read as its conditions** where a compound has to stop behind it. -/
theorem readCompound_text {f : Fragment} (hf : f.Sound) {rest left : List Char} (hrest : Stops rest)
    (hbehind : behind f.tail rest = left) (hleft : Stops left) (total : Nat) :
    readCompound total (f.text ++ rest) = .pure f.compound left := by
  obtain ⟨feature, place⟩ := f
  subst hbehind
  cases place with
  | none =>
    -- The feature ends the fragment: its name stops where the compound has to.
    have hstops : Stops (behind feature.tail rest) := hleft
    have hafter : feature.after rest = ([], behind feature.tail rest) :=
      Feature.after_eq hstops.readName
    show readCompound total (feature.text ++ [] ++ rest) =
      .pure [feature.simple] (behind feature.tail rest)
    rw [List.append_nil, Feature.readCompound_text hf.1 (fun _ => hrest.noDigitFirst), hafter,
      hstops.readSimples, Reading.pure_bind]
    rfl
  | some i =>
    -- The colon ends the feature, and the parenthesis ends the place.
    have hdigit : NoDigitFirst (placeText (some i) ++ rest) := noDigitFirst_cons (by decide) _
    show readCompound total (feature.text ++ placeText (some i) ++ rest) =
      .pure (feature.simple :: placeSimples (some i)) rest
    rw [List.append_assoc, Feature.readCompound_text hf.1 (fun _ => hdigit),
      feature.after_placeText, readSimples_placeText hf.2 hrest, Reading.pure_bind]
    rfl

end Fragment

/-! ## 5. The candidates of an element -/

/-- The element has the feature, and what it is called can be written; a tag may be anything. -/
def Element.Has (e : Element) : Feature → Prop
  | .id name => e.id? = some name ∧ Writable name
  | .attr name value => ⟨name, value⟩ ∈ e.attrs.entries ∧ Writable name
  | .className name => name ∈ e.classes ∧ Writable name
  | .tag name => name = asciiLower e.tag
  | .any => True

namespace Element

theorem eq_escapeName_of_writtenName? {name written : String}
    (h : writtenName? name = some written) :
    Writable name ∧ written = escapeName name := by
  rw [writtenName?_eq] at h
  split at h
  · next hname => exact ⟨hname, (Option.some.inj h).symm⟩
  · cases h

theorem has_of_idCandidate? {e : Element} {s : Settings} {c : Candidate}
    (h : e.idCandidate? s = some c) :
    ∃ f, e.Has f ∧ f.Sound ∧ c.fragment.toList = f.text ∧ c.cost = f.cost := by
  rw [idCandidate?] at h
  simp only [Option.bind_eq_bind, Option.bind_eq_some_iff] at h
  obtain ⟨name, hid, written, hwritten, hc⟩ := h
  obtain ⟨hname, rfl⟩ := eq_escapeName_of_writtenName? hwritten
  cases hc
  refine ⟨.id name, ⟨(Option.filter_eq_some_iff.1 hid).1, hname⟩, hname, ?_, rfl⟩
  rw [String.toList_append, toList_escapeName]
  rfl

theorem has_of_mem_attributeCandidates {e : Element} {s : Settings} {c : Candidate}
    (h : c ∈ e.attributeCandidates s) :
    ∃ f, e.Has f ∧ f.Sound ∧ c.fragment.toList = f.text ∧ c.cost = f.cost := by
  obtain ⟨a, ha, h⟩ := List.mem_filterMap.1 h
  rw [attributeCandidate?] at h
  split at h
  · obtain ⟨written, hwritten, rfl⟩ := Option.map_eq_some_iff.1 h
    obtain ⟨hname, rfl⟩ := eq_escapeName_of_writtenName? hwritten
    refine ⟨.attr a.name a.value, ⟨ha, hname⟩, hname, ?_, rfl⟩
    simp only [String.toList_append, toList_escapeName, toList_escape_string]
    simp [Feature.text]
  · cases h

theorem mem_classes {e : Element} {name : String} : name ∈ e.classes ↔ name ∈ e.classTokens := by
  have hfold : ∀ (tokens seen : List String),
      name ∈ tokens.foldl (fun seen c => if seen.contains c then seen else seen ++ [c]) seen ↔
        name ∈ seen ∨ name ∈ tokens := by
    -- A word that is skipped was seen before.
    intro tokens
    induction tokens with
    | nil => simp
    | cons c tokens ih =>
      intro seen
      rw [List.foldl_cons, ih, List.mem_cons]
      split
      · next hc =>
        rw [List.contains_iff_mem] at hc
        refine or_congr_right' fun hseen => ?_
        exact ⟨.inr, fun h => h.resolve_left fun h => hseen (h ▸ hc)⟩
      · rw [List.mem_append, List.mem_singleton, or_assoc]
  rw [classes, hfold]
  simp

theorem has_of_mem_classCandidates {e : Element} {s : Settings} {c : Candidate}
    (h : c ∈ e.classCandidates s) :
    ∃ f, e.Has f ∧ f.Sound ∧ c.fragment.toList = f.text ∧ c.cost = f.cost := by
  obtain ⟨name, hmem, h⟩ := List.mem_filterMap.1 h
  rw [classCandidate?] at h
  split at h
  · obtain ⟨written, hwritten, rfl⟩ := Option.map_eq_some_iff.1 h
    obtain ⟨hname, rfl⟩ := eq_escapeName_of_writtenName? hwritten
    refine ⟨.className name, ⟨hmem, hname⟩, hname, ?_, rfl⟩
    rw [String.toList_append, toList_escapeName]
    rfl
  · cases h

theorem eq_of_tagCandidate? {e : Element} {s : Settings} {c : Candidate}
    (h : e.tagCandidate? s = some c) :
    c = { fragment := escapeName (asciiLower e.tag), cost := Cost.forTag } := by
  simp only [tagCandidate?] at h
  split at h
  · exact (Option.some.inj h).symm
  · cases h

theorem toList_of_tagCandidate? {e : Element} {s : Settings} {c : Candidate}
    (h : e.tagCandidate? s = some c) :
    c.fragment.toList = (Feature.tag (asciiLower e.tag)).text := by
  rw [eq_of_tagCandidate? h, Feature.text, ← toList_escapeName]

/-- **Every candidate writes a feature that the element has**, and costs as much. -/
theorem has_of_mem_candidates {e : Element} {s : Settings} {c : Candidate}
    (h : c ∈ e.candidates s) :
    ∃ f, e.Has f ∧ (f.Sound ∨ f = .tag (asciiLower e.tag)) ∧ c.fragment.toList = f.text ∧
      c.cost = f.cost := by
  have hfound : c ∈ (e.idCandidate? s).toList ++ e.attributeCandidates s ++ e.classCandidates s ++
      (e.tagCandidate? s).toList → ∃ f, e.Has f ∧ (f.Sound ∨ f = .tag (asciiLower e.tag)) ∧
        c.fragment.toList = f.text ∧ c.cost = f.cost := by
    intro h
    rw [List.mem_append, List.mem_append, List.mem_append, Option.mem_toList,
      Option.mem_toList] at h
    rcases h with ((h | h) | h) | h
    · obtain ⟨f, hhas, hsound, htext⟩ := has_of_idCandidate? h
      exact ⟨f, hhas, .inl hsound, htext⟩
    · obtain ⟨f, hhas, hsound, htext⟩ := has_of_mem_attributeCandidates h
      exact ⟨f, hhas, .inl hsound, htext⟩
    · obtain ⟨f, hhas, hsound, htext⟩ := has_of_mem_classCandidates h
      exact ⟨f, hhas, .inl hsound, htext⟩
    · exact ⟨.tag (asciiLower e.tag), rfl, .inr rfl, toList_of_tagCandidate? h,
        by rw [eq_of_tagCandidate? h]; rfl⟩
  rw [candidates] at h
  split at h
  · rw [List.mem_singleton] at h
    subst h
    exact ⟨.any, trivial, .inl trivial, rfl, rfl⟩
  · exact hfound h

end Element

theorem Candidate.toList_nthChild (c : Candidate) (index : Nat) :
    (c.nthChild index).fragment.toList = c.fragment.toList ++ placeText (some index) := by
  have hdigits : (toString index).toList = Nat.toDigits 10 index := by
    rw [Nat.toString_eq_repr, Nat.toList_repr]
  have hname : ":nth-child(".toList = ':' :: (nthChildName ++ ['(']) := by decide
  have hend : ")".toList = [')'] := by decide
  rw [nthChild, String.toList_append, String.toList_append, String.toList_append, hdigits, hname,
    hend, placeText]
  simp

/-- The candidate writes a feature of the element, alone or with the place that is given. -/
def Candidate.Names (c : Candidate) (e : Element) (index : Option Nat) : Prop :=
  ∃ f : Fragment, e.Has f.feature ∧ (f.feature.Sound ∨ f.feature = .tag (asciiLower e.tag)) ∧
    (f.place = none ∨ f.place = index) ∧ c.fragment.toList = f.text

namespace Level

theorem mem_withCounted {level : Level} {index : Option Nat} {c : Candidate}
    (h : c ∈ level.withCounted index) :
    c ∈ level ∨ ∃ d ∈ level, ∃ i ∈ index, c = d.nthChild i := by
  cases index with
  | none => exact .inl h
  | some i =>
    rcases List.mem_append.1 h with h | h
    · exact .inl h
    · obtain ⟨d, hd, rfl⟩ := List.mem_map.1 h
      exact .inr ⟨d, List.mem_of_mem_filter hd, i, rfl, rfl⟩

/-- **A mode keeps candidates of the element**, each as it is or with the place that is given. -/
theorem mem_ofCandidates {found : Level} {index : Option Nat} {mode : Breadth} {c : Candidate}
    (h : c ∈ ofCandidates found index mode) :
    c ∈ found ∨ ∃ d ∈ found, ∃ i ∈ index, c = d.nthChild i := by
  have htake : ∀ {d : Candidate}, d ∈ found.take 1 → d ∈ found := List.mem_of_mem_take
  cases mode with
  | all => exact mem_withCounted h
  | two => exact (mem_withCounted h).imp htake fun ⟨d, hd, i, hi⟩ => ⟨d, htake hd, i, hi⟩
  | one =>
    obtain ⟨d, hd, rfl⟩ := List.mem_map.1 h
    cases index with
    | none => exact .inl (htake hd)
    | some i =>
      rw [preferCounted]
      split
      · exact .inr ⟨d, htake hd, i, rfl, rfl⟩
      · exact .inl (htake hd)

/-- **Every candidate of a level names its element**, whatever the mode keeps. -/
theorem names_of_mem_build {e : Element} {index : Option Nat} {mode : Breadth} {distance : Nat}
    {s : Settings} {c : Candidate} (h : c ∈ build e index mode distance s) :
    c.level = distance ∧ c.Names e index := by
  obtain ⟨b, hb, rfl⟩ := List.mem_map.1 h
  refine ⟨rfl, ?_⟩
  show b.Names e index
  rcases mem_ofCandidates hb with hb | ⟨d, hd, i, hi, rfl⟩
  · obtain ⟨f, hhas, hsound, htext, -⟩ := Element.has_of_mem_candidates hb
    exact ⟨⟨f, none⟩, hhas, hsound, .inl rfl,
      by rw [htext, Fragment.text, placeText, List.append_nil]⟩
  · obtain ⟨f, hhas, hsound, htext, -⟩ := Element.has_of_mem_candidates hd
    exact ⟨⟨f, some i⟩, hhas, hsound, .inr hi.symm,
      by rw [Candidate.toList_nthChild, htext, Fragment.text]⟩

end Level

end UniqueSelector
