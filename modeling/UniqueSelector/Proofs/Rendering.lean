import UniqueSelector.Proofs.Joints

/-!
# Rendering — what the text of a path is read as

A path is read as it is meant exactly if each of its joints stands, that is, if no fragment that
breaks off with a number has a blank alone behind it.
-/

namespace UniqueSelector

open Selector

/-! ## 1. Paths -/

/-- The conditions that the fragment of a candidate is read as by itself. -/
def Candidate.compound (c : Candidate) : Compound :=
  match parse c.fragment with
  | .ok [⟨subject, []⟩] => subject
  | _ => []

/-- The fragment of the candidate is read as a compound wherever it stands. -/
def Candidate.Legible (c : Candidate) : Prop := ∃ k, Reads c.fragment.toList k

/-- The candidate writes a sound fragment. -/
def Candidate.Written (c : Candidate) : Prop := ∃ f : Fragment, f.Sound ∧ c.fragment.toList = f.text

namespace Candidate

theorem parse_of_reads {c : Candidate} {k : Compound} (h : Reads c.fragment.toList k) :
    parse c.fragment = .ok [⟨k, []⟩] := by
  have hopens := h.opens []
  rw [List.append_nil] at hopens
  rw [← String.ofList_toList (s := c.fragment)]
  exact parse_of_readLinked hopens h.lone

theorem Legible.reads {c : Candidate} (h : c.Legible) : Reads c.fragment.toList c.compound := by
  obtain ⟨k, hk⟩ := h
  rw [compound, parse_of_reads hk]
  exact hk

theorem Legible.parse {c : Candidate} (h : c.Legible) : parse c.fragment = .ok [⟨c.compound, []⟩] :=
  parse_of_reads h.reads

theorem Legible.opens {c : Candidate} (h : c.Legible) (text : String) :
    Opens (c.fragment ++ text).toList := by
  rw [String.toList_append]
  exact h.reads.opens _

theorem Written.legible {c : Candidate} (h : c.Written) : c.Legible := by
  obtain ⟨f, hf, htext⟩ := h
  exact ⟨f.compound, htext ▸ Fragment.reads hf⟩

theorem compound_eq {c : Candidate} {f : Fragment} (hf : f.Sound)
    (htext : c.fragment.toList = f.text) :
    c.compound = f.compound := by
  have hreads : Reads c.fragment.toList f.compound := htext ▸ Fragment.reads hf
  rw [compound, parse_of_reads hreads]

end Candidate

namespace Path

/-- What a joint means. -/
def combinator (nearer farther : Candidate) : Combinator :=
  if nearer.level + 1 = farther.level then .child else .descendant

/-- What a path means outward from `nearer`. -/
def chain (nearer : Candidate) : Path → List (Combinator × Compound)
  | [] => []
  | farther :: path => (combinator nearer farther, farther.compound) :: chain farther path

/-- What a path means. -/
def intended : Path → Selector.Complex
  | [] => ⟨[], []⟩
  | target :: path => ⟨target.compound, chain target path⟩

/-- The joint stands between the fragments whatever the reader does at the end of the
farther one. -/
def Joined (nearer farther : Candidate) : Prop :=
  nearer.level + 1 = farther.level ∨ breaksOff farther.fragment.toList = false

instance (nearer farther : Candidate) : Decidable (Joined nearer farther) :=
  inferInstanceAs (Decidable (_ ∨ _))

/-- No fragment that breaks off with a number has a blank alone behind it. -/
def Separated (path : Path) : Prop := path.IsChain Joined

theorem toList_joint_child {nearer farther : Candidate} (h : nearer.level + 1 = farther.level) :
    (joint nearer farther).toList = [' ', '>', ' '] := by
  rw [joint, if_pos h]
  rfl

theorem toList_joint_descendant {nearer farther : Candidate}
    (h : nearer.level + 1 ≠ farther.level) :
    (joint nearer farther).toList = [' '] := by
  rw [joint, if_neg h]
  rfl

/-- A joint that stands is read as what it means. -/
theorem readLinked_joint {nearer farther : Candidate} (hfarther : farther.Legible)
    (hjoined : Joined nearer farther) {text : String} (htext : Opens text.toList) (total : Nat) :
    readLinked total (farther.fragment ++ joint nearer farther ++ text).toList =
      (readLinked total text.toList).bind fun s rest =>
        .pure (s.beyond [(combinator nearer farther, farther.compound)]) rest := by
  rw [String.toList_append, String.toList_append, combinator]
  by_cases hlevel : nearer.level + 1 = farther.level
  · rw [toList_joint_child hlevel, if_pos hlevel, List.append_assoc]
    exact hfarther.reads.child htext total
  · rw [toList_joint_descendant hlevel, if_neg hlevel, List.append_assoc]
    exact hfarther.reads.descendant (hjoined.resolve_left hlevel) htext total

/-- From `nearer` outward, the reader takes a path for what it means if all its joints stand. -/
theorem readLinked_renderFrom {path : Path} (hpath : ∀ c ∈ path, c.Legible) {nearer : Candidate}
    (hseparated : Separated (nearer :: path)) {text : String} (htext : Opens text.toList)
    (total : Nat) :
    readLinked total (renderFrom text nearer path).toList =
      (readLinked total text.toList).bind fun s rest =>
        .pure (s.beyond (chain nearer path)) rest := by
  induction path generalizing nearer text with
  | nil =>
    -- Nothing is farther out, and going beyond a selector by nothing leaves it as it is.
    simp only [renderFrom, chain, Complex.beyond_nil]
    cases readLinked total text.toList with
    | ok s rest ws => simp [Reading.bind, Reading.pure, Reading.after]
    | fault f ws => rfl
  | cons farther path ih =>
    have hfarther := hpath farther (.head path)
    rw [Separated, List.isChain_cons_cons] at hseparated
    have hopens : Opens (farther.fragment ++ joint nearer farther ++ text).toList := by
      rw [String.append_assoc]
      exact hfarther.opens _
    rw [renderFrom, ih (fun c h => hpath c (.tail _ h)) hseparated.2 hopens,
      readLinked_joint hfarther hseparated.1 htext, Reading.bind_assoc]
    simp only [Reading.pure_bind, Complex.beyond_beyond]
    rfl

theorem opens_renderFrom {path : Path} (hpath : ∀ c ∈ path, c.Legible) {nearer : Candidate}
    {text : String} (htext : Opens text.toList) : Opens (renderFrom text nearer path).toList := by
  induction path generalizing nearer text with
  | nil => exact htext
  | cons farther path ih =>
    apply ih fun c h => hpath c (.tail _ h)
    rw [String.append_assoc]
    exact (hpath farther (.head path)).opens _

theorem opens_render {target : Candidate} {path : Path} (hpath : ∀ c ∈ target :: path, c.Legible) :
    Opens (render (target :: path)).toList := by
  apply opens_renderFrom fun c h => hpath c (.tail _ h)
  simpa using (hpath target (.head path)).opens ""

/-- A path whose joints all stand is read as what it means. -/
theorem parse_render_of_separated {target : Candidate} {path : Path}
    (hpath : ∀ c ∈ target :: path, c.Legible) (hseparated : Separated (target :: path)) :
    parse (render (target :: path)) = .ok [intended (target :: path)] := by
  have htarget := hpath target (.head path)
  have htext : Opens target.fragment.toList := by simpa using htarget.opens ""
  rw [← String.ofList_toList (s := render (target :: path))]
  apply parse_of_readLinked (opens_render hpath)
  intro total
  rw [render, readLinked_renderFrom (fun c h => hpath c (.tail _ h)) hseparated htext,
    htarget.reads.lone, Reading.pure_bind]
  rfl

/-- What is read as the path from `nearer` outward has joints that all stand. -/
theorem separated_of_readLinked {path : Path} (hpath : ∀ c ∈ path, c.Written) {nearer : Candidate}
    (hnearer : nearer.Written) {text : String} (behind : String)
    (htext : text = nearer.fragment ++ behind) {total : Nat} {rest : List Char} {ws : List Warning}
    {s : Selector.Complex}
    (h : readLinked total (renderFrom text nearer path).toList =
      .ok (s.beyond (chain nearer path)) rest ws) :
    Separated (nearer :: path) := by
  -- From the outside inward: the joints farther out stand by induction, then the nearest one
  -- has to.
  induction path generalizing nearer text behind s with
  | nil => exact .singleton nearer
  | cons farther path ih =>
    have hfarther := hpath farther (.head path)
    have htail : ∀ c ∈ path, c.Written := fun c h => hpath c (.tail _ h)
    have houter : Separated (farther :: path) := by
      have hchain : s.beyond (chain nearer (farther :: path)) =
          (s.beyond [(combinator nearer farther, farther.compound)]).beyond (chain farther path) :=
        (Complex.beyond_beyond s [(combinator nearer farther, farther.compound)]
          (chain farther path)).symm
      rw [hchain] at h
      exact ih htail hfarther _ String.append_assoc h
    rw [Separated, List.isChain_cons_cons]
    refine ⟨?_, houter⟩
    by_contra hjoined
    -- The joints farther out stand, so the text up to this one was read before them.
    rw [renderFrom, readLinked_renderFrom (fun c h => (htail c h).legible) houter
      (by rw [String.append_assoc]; exact hfarther.legible.opens _)] at h
    obtain ⟨s', rest', ws', _, hread, h⟩ := Reading.bind_eq_ok h
    rw [Reading.pure, Reading.ok.injEq] at h
    have hs' : s' = s.beyond [(combinator nearer farther, farther.compound)] := by
      rw [← Complex.beyond_inj (chain farther path), h.1, Complex.beyond_beyond]
      rfl
    rw [Joined, not_or, Bool.not_eq_false] at hjoined
    obtain ⟨f, hf, hfragment⟩ := hfarther
    obtain ⟨g, hg, hgfragment⟩ := hnearer
    rw [hfragment, Fragment.breaksOff_text] at hjoined
    rw [htext, String.toList_append, String.toList_append, String.toList_append, hfragment,
      hgfragment, toList_joint_descendant hjoined.1, List.append_assoc] at hread
    rw [Candidate.compound_eq hf hfragment] at hs'
    exact Fragment.readLinked_open hf hjoined.2 hg hread s _ hs'

/-- **A path is read as it is meant exactly if no joint is lost.** -/
theorem parse_render {target : Candidate} {path : Path} (hpath : ∀ c ∈ target :: path, c.Written) :
    parse (render (target :: path)) = .ok [intended (target :: path)] ↔
      Separated (target :: path) := by
  have hlegible : ∀ c ∈ target :: path, c.Legible := fun c h => (hpath c h).legible
  refine ⟨fun h => ?_, parse_render_of_separated hlegible⟩
  have hintended : intended (target :: path) =
      Complex.beyond ⟨target.compound, []⟩ (chain target path) := rfl
  obtain ⟨rest, ws, hread⟩ := readLinked_of_parse (opens_render hlegible) h
  rw [hintended] at hread
  exact separated_of_readLinked (fun c h => hpath c (.tail _ h)) (hpath target (.head path)) ""
    (by simp) hread

end Path

/-! ## 2. Candidates that are generated -/

/-- A candidate that names an element by one feature; a tag has to begin with a letter. -/
inductive Candidate.Bare : Candidate → Prop where
  | id {e : Element} {s : Settings} {c : Candidate} (h : e.idCandidate? s = some c) : Bare c
  | attr {e : Element} {s : Settings} {c : Candidate} (h : c ∈ e.attributeCandidates s) : Bare c
  | className {e : Element} {s : Settings} {c : Candidate} (h : c ∈ e.classCandidates s) : Bare c
  | tag {e : Element} {s : Settings} {c : Candidate} {letter : Char} {letters : List Char}
      (htag : e.tag.toList = letter :: letters) (hletter : letter.isAlpha = true)
      (h : e.tagCandidate? s = some c) : Bare c
  | any : Bare .any

/-- A candidate that names an element by one feature and may add a place that fits into 32 bits. -/
def Candidate.Generated (c : Candidate) : Prop :=
  ∃ b : Candidate, b.Bare ∧ (c.fragment = b.fragment ∨
    ∃ i, 1 ≤ i ∧ i < 2 ^ 31 ∧ c.fragment = (b.nthChild i).fragment)

theorem writable_asciiLower {tag : String} {letter : Char} {letters : List Char}
    (htag : tag.toList = letter :: letters) (hletter : letter.isAlpha = true) :
    Writable (asciiLower tag) := by
  have hhyphen : letter.toLower ≠ '-' := by
    intro h
    have halpha := letter.isAlpha_toLower_eq_isAlpha
    rw [h, hletter] at halpha
    exact absurd halpha (by decide)
  have hlower : (asciiLower tag).toList = letter.toLower :: letters.map Char.toLower := by
    rw [toList_asciiLower, htag, List.map_cons]
  constructor
  · intro h
    rw [h] at hlower
    cases hlower
  · intro h
    rw [h] at hlower
    exact hhyphen (List.cons.inj hlower).1.symm

namespace Candidate

theorem Bare.text {c : Candidate} (h : c.Bare) :
    ∃ f : Feature, f.Sound ∧ c.fragment.toList = f.text := by
  cases h with
  | id h =>
    obtain ⟨f, -, hf, htext, -⟩ := Element.has_of_idCandidate? h
    exact ⟨f, hf, htext⟩
  | attr h =>
    obtain ⟨f, -, hf, htext, -⟩ := Element.has_of_mem_attributeCandidates h
    exact ⟨f, hf, htext⟩
  | className h =>
    obtain ⟨f, -, hf, htext, -⟩ := Element.has_of_mem_classCandidates h
    exact ⟨f, hf, htext⟩
  | tag htag hletter h =>
    exact ⟨.tag _, writable_asciiLower htag hletter, Element.toList_of_tagCandidate? h⟩
  | any => exact ⟨.any, trivial, rfl⟩

theorem Generated.written {c : Candidate} (h : c.Generated) : c.Written := by
  obtain ⟨b, hb, hc⟩ := h
  obtain ⟨f, hf, htext⟩ := hb.text
  rcases hc with hc | ⟨i, -, hi, hc⟩
  · refine ⟨⟨f, none⟩, ⟨hf, fun i hi => by cases hi⟩, ?_⟩
    rw [hc, htext, Fragment.text, placeText, List.append_nil]
  · refine ⟨⟨f, some i⟩, ⟨hf, fun j hj => by cases hj; exact hi⟩, ?_⟩
    rw [hc, toList_nthChild, htext, Fragment.text]

end Candidate

/-- **Rendering and reading agree exactly on the paths without a lost joint.** Each fragment by
itself is read as one compound, and the whole path as these compounds with the combinators between
them, if and only if no fragment that breaks off with a number has a blank alone behind it. -/
theorem Path.parse_render_generated {path : Path} (hne : path ≠ [])
    (hpath : ∀ c ∈ path, c.Generated) :
    (∀ c ∈ path, parse c.fragment = .ok [⟨c.compound, []⟩]) ∧
      (parse path.render = .ok [path.intended] ↔ path.Separated) := by
  have hwritten : ∀ c ∈ path, c.Written := fun c h => (hpath c h).written
  refine ⟨fun c h => (hwritten c h).legible.parse, ?_⟩
  cases path with
  | nil => exact absurd rfl hne
  | cons target path => exact parse_render hwritten

theorem Candidate.generated_span (level : Nat) :
    (Candidate.mk "span" Cost.forTag level).Generated :=
  have hname : "span".toList = 's' :: ['p', 'a', 'n'] := rfl
  ⟨_, .tag (e := ⟨"span", {}⟩) (s := {}) hname (by decide) rfl, .inl rfl⟩

theorem Candidate.generated_class (level : Nat) :
    (Candidate.mk ".\\E9" Cost.forClass level).Generated :=
  ⟨_, .className (e := ⟨"p", ⟨[⟨"class", "é"⟩]⟩⟩) (s := {}) (.head []), .inl rfl⟩

/-- A class that breaks off with a number, and a child: the joint stands. -/
theorem Path.parse_render_generated_child :
    let path : Path := [⟨"span", Cost.forTag, 0⟩, ⟨".\\E9", Cost.forClass, 1⟩]
    (path ≠ [] ∧ ∀ c ∈ path, c.Generated) ∧
      (∀ c ∈ path, parse c.fragment = .ok [⟨c.compound, []⟩]) ∧
      (parse path.render = .ok [path.intended] ↔ path.Separated) := by
  have hne : ([⟨"span", Cost.forTag, 0⟩, ⟨".\\E9", Cost.forClass, 1⟩] : Path) ≠ [] :=
    List.cons_ne_nil _ _
  have hpath : ∀ c ∈ ([⟨"span", Cost.forTag, 0⟩, ⟨".\\E9", Cost.forClass, 1⟩] : Path),
      c.Generated := by
    intro c hc
    rw [List.mem_cons, List.mem_singleton] at hc
    rcases hc with rfl | rfl
    · exact Candidate.generated_span 0
    · exact Candidate.generated_class 1
  exact ⟨⟨hne, hpath⟩, Path.parse_render_generated hne hpath⟩

/-- The same class farther up: the number takes the blank, and the tag becomes a part of
the class. -/
theorem Path.parse_render_lost_joint :
    let path : Path := [⟨"span", Cost.forTag, 0⟩, ⟨".\\E9", Cost.forClass, 2⟩]
    (∀ c ∈ path, c.Generated) ∧ path.Pairwise (fun nearer farther => nearer.level < farther.level) ∧
      path.intended = ⟨[.type "span"], [(.descendant, [.class "é"])]⟩ ∧
        parse path.render = .ok [⟨[.class "éspan"], []⟩] := by
  refine ⟨?_, by decide, by decide +kernel, by decide +kernel⟩
  intro c hc
  rw [List.mem_cons, List.mem_singleton] at hc
  rcases hc with rfl | rfl
  · exact Candidate.generated_span 0
  · exact Candidate.generated_class 2

end UniqueSelector
