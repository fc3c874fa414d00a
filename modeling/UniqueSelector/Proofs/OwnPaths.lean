import UniqueSelector.Proofs.Mute
import UniqueSelector.Proofs.Fits
import UniqueSelector.Proofs.Ascent
import UniqueSelector.Proofs.Combinations

/-!
# Own paths — selectors made from an element lead back to it

The candidates of a path name elements on one way up. If such a path is read as it is meant, then
the element where the way begins matches it, whatever was left out in between.
-/

namespace UniqueSelector

open Selector

/-! ## 1. The candidates of one element -/

theorem breaksOff_placeText (i : Nat) : breaksOff (placeText (some i)) = false := by
  have htext : placeText (some i) = ':' :: (nthChildName ++ '(' :: Nat.toDigits 10 i) ++ [')'] := by
    simp [placeText]
  rw [htext]
  exact breaksOff_concat (by decide) _

theorem readHead_placeText (i : Nat) (rest : List Char) :
    readHead (placeText (some i) ++ rest) = ([], placeText (some i) ++ rest) :=
  readHead_of_not_startsName (by decide) rfl

/-- A place by itself is a compound as well. -/
theorem reads_placeText {i : Nat} (hi : i < 2 ^ 31) :
    Reads (placeText (some i)) (placeSimples (some i)) where
  opens rest := opens_placeText i rest
  reads := by
    intro rest left hrest hleft hstops total
    rw [leftBehind, breaksOff_placeText, if_neg (by decide)] at hleft
    subst hleft
    rw [readCompound_of_readSimple (readHead_placeText i rest) (readSimple_placeText i total rest),
      if_pos hi, Reading.pure_bind, hrest.readSimples, Reading.pure_bind]
    rfl

theorem dead_of_fail {cs : List Char} (hopens : Opens cs)
    (h : ∀ total, ∃ f, readCompound total cs = .fail f) :
    Dead cs := by
  right
  intro total s rest ws
  obtain ⟨f, hf⟩ := h total
  rw [hopens.skipBlanks, readLinked_of_fail hf]
  exact fun h => by cases h

theorem not_writable {name : String} (h : ¬Writable name) : name = "" ∨ name = "-" := by
  rw [Writable] at h
  by_cases hempty : name = ""
  · exact .inl hempty
  · exact .inr (by_contra fun hhyphen => h ⟨hempty, hhyphen⟩)

/-- A place that does not fit into 32 bits makes every fragment mute. -/
theorem dead_placeText {f : Feature} (hf : f.Sound) {i : Nat} (hi : ¬i < 2 ^ 31)
    (rest : List Char) :
    Dead (f.text ++ placeText (some i) ++ rest) := by
  rw [List.append_assoc]
  apply dead_of_fail (Feature.opens_text hf _)
  intro total
  have hdigit : NoDigitFirst (placeText (some i) ++ rest) := noDigitFirst_cons (by decide) _
  refine ⟨.invalidNth (String.ofList (Nat.toDigits 10 i)), ?_⟩
  rw [Feature.readCompound_text hf (fun _ => hdigit), f.after_placeText,
    readSimples_of_some (readSimple_placeText i total rest), if_neg hi, Reading.fail_bind,
    Reading.fail_bind]

theorem dead_place {i : Nat} (hi : ¬i < 2 ^ 31) (rest : List Char) :
    Dead (placeText (some i) ++ rest) := by
  apply dead_of_fail (opens_placeText i rest)
  intro total
  refine ⟨.invalidNth (String.ofList (Nat.toDigits 10 i)), ?_⟩
  rw [readCompound_of_readSimple (readHead_placeText i rest) (readSimple_placeText i total rest),
    if_neg hi, Reading.fail_bind]

theorem dead_hyphen {cs : List Char} (h : ∀ c ∈ cs.head?, c = ' ' ∨ c = ':') :
    Dead ('-' :: cs) := by
  have hstart : startsName ('-' :: cs) = false := by
    cases cs with
    | nil => rfl
    | cons c cs => rcases h c rfl with rfl | rfl <;> rfl
  apply dead_of_fail ⟨'-', cs, rfl, by decide, by decide, rfl⟩
  intro total
  exact ⟨_, readCompound_of_none (readHead_of_not_startsName (by decide) hstart) rfl⟩

namespace Candidate

variable {t : Document} {id : NodeId} {e : Element} {c : Candidate}

/-- The candidate stands for conditions that the element at `id` meets. -/
def Fits (c : Candidate) (t : Document) (id : NodeId) : Prop :=
  c.Legible ∧ Compound.matches c.compound t id = true

theorem fits_of_reads {k : Compound} (h : Reads c.fragment.toList k)
    (hk : Compound.matches k t id = true) :
    c.Fits t id :=
  ⟨⟨k, h⟩, by rwa [compound, parse_of_reads h]⟩

theorem fits_of_fragment (he : t.element? id = some e) (hnull : e.NullFree)
    (hnames : (e.attrs.entries.map Attribute.name).Nodup) {f : Fragment} (hf : f.Sound)
    (hhas : e.Has f.feature) (hplace : f.place = none ∨ f.place = t.elementIndex id)
    (htext : c.fragment.toList = f.text) : c.Fits t id := by
  apply fits_of_reads
  · rw [htext]
    exact Fragment.reads hf
  · exact Fragment.matches_compound he hnull hnames hhas hplace hf.2

/-- The candidate writes a sound fragment of the element, or nothing but its place. -/
inductive Spells (c : Candidate) (e : Element) (index : Option Nat) : Prop where
  | fragment (f : Fragment) (hf : f.Sound) (hhas : e.Has f.feature)
      (hplace : f.place = none ∨ f.place = index) (htext : c.fragment.toList = f.text)
  | place (i : Nat) (hi : i < 2 ^ 31) (hplace : some i = index)
    (htext : c.fragment.toList = placeText (some i))

theorem Spells.legible {index : Option Nat} (h : c.Spells e index) : c.Legible := by
  cases h with
  | fragment f hf hhas hplace htext => exact ⟨f.compound, htext ▸ Fragment.reads hf⟩
  | place i hi hplace htext => exact ⟨placeSimples (some i), htext ▸ reads_placeText hi⟩

theorem Spells.fits (he : t.element? id = some e) (hnull : e.NullFree)
    (hnames : (e.attrs.entries.map Attribute.name).Nodup) (h : c.Spells e (t.elementIndex id)) :
    c.Fits t id := by
  cases h with
  | fragment f hf hhas hplace htext => exact fits_of_fragment he hnull hnames hf hhas hplace htext
  | place i hi hplace htext =>
    apply fits_of_reads (htext ▸ reads_placeText hi)
    rw [Compound.matches, he]
    exact all_placeSimples (.inr hplace) (fun j hj => by cases hj; exact hi) e

/-- A tag that is no name: its fragment is mute, except for a place behind the empty tag. -/
theorem spells_or_mute_of_not_writable {name : String} (hname : ¬Writable name)
    {index place : Option Nat} (hplace : place = none ∨ place = index)
    (htext : c.fragment.toList = (Feature.tag name).text ++ placeText place) :
    c.Spells e index ∨ c.Mute := by
  rcases not_writable hname with rfl | rfl
  · have hempty : (Feature.tag "").text = [] := by decide
    rw [hempty, List.nil_append] at htext
    cases place with
    | none =>
      -- An empty fragment: the text ends, or a sign follows with nothing in front of it.
      right
      rintro rest (rfl | ⟨cs, rfl⟩)
      · left
        rw [htext]
        rintro ⟨_, _, h, -⟩
        cases h
      · left
        rw [htext]
        rintro ⟨_, _, h, -, -, hsign⟩
        cases h
        cases hsign
    | some i =>
      -- A place with nothing in front of it is a compound all the same.
      by_cases hi : i < 2 ^ 31
      · exact .inl (.place i hi (hplace.resolve_left (by simp)) htext)
      · right
        intro rest _
        rw [htext]
        exact dead_place hi rest
  · -- A lone hyphen starts no name, whatever stands behind it.
    have hhyphen : (Feature.tag "-").text = ['-'] := by decide
    rw [hhyphen] at htext
    right
    intro rest hrest
    rw [htext, List.append_assoc, List.singleton_append]
    apply dead_hyphen
    intro d hd
    cases place with
    | some i =>
      cases hd
      exact .inr rfl
    | none =>
      rcases hrest with rfl | ⟨cs, rfl⟩
      · cases hd
      · cases hd
        exact .inl rfl

/-- A candidate of an element spells something, or it is mute. -/
theorem Names.spells_or_mute {index : Option Nat} (h : c.Names e index) :
    c.Spells e index ∨ c.Mute := by
  obtain ⟨f, hhas, hsound, hplace, htext⟩ := h
  by_cases hfeature : f.feature.Sound
  · by_cases hi : ∀ i ∈ f.place, i < 2 ^ 31
    · exact .inl (.fragment f ⟨hfeature, hi⟩ hhas hplace htext)
    · right
      intro rest _
      obtain ⟨feature, place⟩ := f
      cases place with
      | none => exact absurd (fun i hi => by cases hi) hi
      | some i =>
        rw [htext]
        exact dead_placeText hfeature (fun hlt => hi fun j hj => by cases hj; exact hlt) rest
  · have htag := hsound.resolve_left hfeature
    rw [htag] at hfeature
    rw [Fragment.text, htag] at htext
    exact spells_or_mute_of_not_writable hfeature hplace htext

/-- **A candidate of an element stands for conditions that the element meets**, or it is mute. -/
theorem Names.fits_or_mute (he : t.element? id = some e) (hnull : e.NullFree)
    (hnames : (e.attrs.entries.map Attribute.name).Nodup) (h : c.Names e (t.elementIndex id)) :
    c.Fits t id ∨ c.Mute :=
  h.spells_or_mute.imp_left (Spells.fits he hnull hnames)

/-- Nothing is mute if the tag is a name and the place fits into 32 bits. -/
theorem Names.fits (he : t.element? id = some e) (hnull : e.NullFree)
    (hnames : (e.attrs.entries.map Attribute.name).Nodup) (htag : Writable (asciiLower e.tag))
    (hindex : ∀ i, t.elementIndex id = some i → i < 2 ^ 31) (h : c.Names e (t.elementIndex id)) :
    c.Fits t id := by
  obtain ⟨f, hhas, hsound, hplace, htext⟩ := h
  have hfeature : f.feature.Sound := by
    rcases hsound with hsound | heq
    · exact hsound
    · rw [heq]
      exact htag
  have hi : ∀ i ∈ f.place, i < 2 ^ 31 := by
    intro i hi
    rcases hplace with hnone | hsome
    · rw [hnone] at hi
      cases hi
    · exact hindex i (hsome.symm.trans hi)
  exact fits_of_fragment he hnull hnames ⟨hfeature, hi⟩ hhas hplace htext

/-- A text that is read is not dead. -/
theorem Legible.not_dead (h : c.Legible) : ¬Dead c.fragment.toList :=
  fun hdead => parse_ne_ok hdead _ h.parse

/-- A fragment that is read has a place that fits into 32 bits. -/
theorem sound_of_legible {f : Feature} (hf : f.Sound) {place : Option Nat}
    (htext : c.fragment.toList = f.text ++ placeText place) (h : c.Legible) :
    (Fragment.mk f place).Sound := by
  refine ⟨hf, fun i hi => ?_⟩
  cases hi
  by_contra hlarge
  have hdead := dead_placeText hf hlarge []
  rw [List.append_nil, ← htext] at hdead
  exact h.not_dead hdead

end Candidate

/-! ## 2. The way up -/

namespace Quest

variable {q : Quest}

/-- The node number `l` on the way is `l` elements above the target. -/
theorem ascend_of_way {l : Nat} {id : NodeId} (h : q.way[l]? = some id) :
    l ≤ q.document.size ∧ ascend q.document.parentElement l q.target = some id := by
  -- The way is cut off at the stop, but up to there it is the walk along the parents.
  obtain ⟨rest, hrest⟩ := List.takeWhile_prefix (fun id => some id != q.stop)
    (l := q.target :: follow q.document.parentElement q.document.size q.target)
  have hfull : (q.target :: follow q.document.parentElement q.document.size q.target)[l]? =
      some id := by
    obtain ⟨hl, -⟩ := List.getElem?_eq_some_iff.1 h
    rw [← hrest]
    exact (List.getElem?_append_left hl).trans h
  cases l with
  | zero =>
    cases hfull
    exact ⟨Nat.zero_le _, rfl⟩
  | succ l =>
    rw [List.getElem?_cons_succ, getElem?_follow] at hfull
    split at hfull
    · next hl => exact ⟨hl, hfull⟩
    · cases hfull

theorem element_of_way {l : Nat} {id : NodeId} (h : q.way[l]? = some id)
    (htarget : q.document.isElement q.target = true) : q.document.isElement id = true := by
  have hascend := (ascend_of_way h).2
  cases l with
  | zero =>
    cases hascend
    exact htarget
  | succ l =>
    rw [ascend_succ] at hascend
    obtain ⟨x, -, hx⟩ := Option.bind_eq_some_iff.1 hascend
    exact (Document.parent_of_parentElement hx).2

/-- What a joint means leads from the one node of the way to the other. -/
theorem mem_reach_of_way {nearer farther : Candidate} {id other : NodeId}
    (hid : q.way[nearer.level]? = some id) (hother : q.way[farther.level]? = some other)
    (hlt : nearer.level < farther.level) :
    other ∈ (Path.combinator nearer farther).reach q.document id := by
  have hnear := (ascend_of_way hid).2
  obtain ⟨hsize, hfar⟩ := ascend_of_way hother
  obtain ⟨d, hd⟩ := Nat.exists_eq_add_of_lt hlt
  rw [show farther.level = nearer.level + (d + 1) by omega, ascend_add, hnear,
    Option.bind_some] at hfar
  rw [Path.combinator]
  split
  · -- Adjacent levels: one step, so the farther node is the parent.
    next hlevel =>
    have hzero : d = 0 := by omega
    rw [hzero, ascend_succ, ascend, Option.bind_some] at hfar
    rw [Combinator.reach, hfar]
    exact .head _
  · -- Otherwise some number of steps, and parents that are elements are parents.
    rw [Combinator.reach, Document.ancestors, mem_follow]
    exact ⟨d, by omega, ascend_of_le (fun h => (Document.parent_of_parentElement h).1) hfar⟩

/-- From each element of the way outward, the candidates of a path can be followed to the end. -/
theorem chainMatches_chain {path : Path}
    (hpath : ∀ c ∈ path, ∃ id, q.way[c.level]? = some id ∧
      Compound.matches c.compound q.document id = true)
    {nearer : Candidate}
    (hlevels : (nearer :: path).Pairwise fun nearer farther => nearer.level < farther.level)
    {id : NodeId} (hid : q.way[nearer.level]? = some id) :
    chainMatches q.document (Path.chain nearer path) id = true := by
  -- The match goes on from the node of the way on the level of the farther candidate.
  induction path generalizing nearer id with
  | nil => rfl
  | cons farther path ih =>
    obtain ⟨other, hother, hmatches⟩ := hpath farther (.head path)
    rw [List.pairwise_cons] at hlevels
    have houter := ih (fun c h => hpath c (.tail _ h)) hlevels.2 hother
    rw [Path.chain, chainMatches, List.any_eq_true]
    refine ⟨other, mem_reach_of_way hid hother (hlevels.1 farther (.head path)), ?_⟩
    rw [hmatches, houter]
    rfl

/-! ## 3. Own paths -/

/-- A path from the target upward whose candidates name the elements on the way. -/
structure Own (q : Quest) (path : Path) : Prop where
  begins : (path.head?.map Candidate.level) = some 0
  climbs : path.Pairwise fun nearer farther => nearer.level < farther.level
  names : ∀ c ∈ path, ∃ id e, q.way[c.level]? = some id ∧ q.document.element? id = some e ∧
    c.Names e (q.document.elementIndex id)

/-- A path without a gap. -/
def Gapless (path : Path) : Prop :=
  path.IsChain fun nearer farther => nearer.level + 1 = farther.level

theorem Own.exists_cons {path : Path} (h : q.Own path) :
    ∃ target rest, path = target :: rest ∧ target.level = 0 := by
  have hbegins := h.begins
  cases path with
  | nil => cases hbegins
  | cons target rest => exact ⟨target, rest, rfl, Option.some.inj hbegins⟩

theorem separated_of_gapless {path : Path} (h : Gapless path) : path.Separated :=
  List.IsChain.imp (fun _ _ => .inl) h

/-- The target matches what its own path means. -/
theorem Own.matches_intended {path : Path} (h : q.Own path)
    (hfits : ∀ c ∈ path, ∃ id, q.way[c.level]? = some id ∧ c.Fits q.document id) :
    Complex.matches path.intended q.document q.target = true := by
  obtain ⟨target, rest, rfl, hlevel⟩ := h.exists_cons
  have hmatches : ∀ c ∈ target :: rest, ∃ id, q.way[c.level]? = some id ∧
      Compound.matches c.compound q.document id = true := fun c hc => by
    obtain ⟨id, hid, hfits⟩ := hfits c hc
    exact ⟨id, hid, hfits.2⟩
  obtain ⟨id, hid, hsubject⟩ := hmatches target (.head rest)
  have htarget : id = q.target := by
    have hascend := (ascend_of_way hid).2
    rw [hlevel] at hascend
    exact (Option.some.inj hascend).symm
  subst htarget
  have hchain := chainMatches_chain (fun c hc => hmatches c (.tail _ hc)) h.climbs hid
  rw [Path.intended, Complex.matches, hsubject, hchain]
  rfl

section fits

variable (hwell : q.document.WellFormed) (hnull : q.document.NullFree)
include hwell hnull

theorem Own.fits_or_mute {path : Path} (h : q.Own path) {c : Candidate} (hc : c ∈ path) :
    (∃ id, q.way[c.level]? = some id ∧ c.Fits q.document id) ∨ c.Mute := by
  obtain ⟨id, e, hid, he, hnames⟩ := h.names c hc
  rcases hnames.fits_or_mute he (hnull he) (hwell.names he) with hfits | hmute
  · exact .inl ⟨id, hid, hfits⟩
  · exact .inr hmute

/-- **A path without a gap leads back to its target** if its text is a selector at all. -/
theorem Own.matches_of_parse {path : Path} (h : q.Own path) (hgapless : Gapless path)
    {l : Selectors} (hparse : parse path.render = .ok l) :
    Selectors.matches l q.document q.target = true := by
  by_cases hmute : ∃ c ∈ path, c.Mute
  · -- One mute candidate in a row of children, and nothing could have been read.
    obtain ⟨target, rest, rfl, -⟩ := h.exists_cons
    have hcases : ∀ c ∈ target :: rest, c.Legible ∨ c.Mute := fun c hc => by
      rcases h.fits_or_mute hwell hnull hc with ⟨_, _, hfits⟩ | hmute
      · exact .inl hfits.1
      · exact .inr hmute
    exact absurd hparse (Path.parse_render_ne_ok hcases hgapless hmute l)
  · have hfits : ∀ c ∈ path, ∃ id, q.way[c.level]? = some id ∧ c.Fits q.document id := fun c hc =>
      (h.fits_or_mute hwell hnull hc).resolve_right fun hm => hmute ⟨c, hc, hm⟩
    have hmatches := h.matches_intended hfits
    obtain ⟨target, rest, rfl, -⟩ := h.exists_cons
    have hlegible : ∀ c ∈ target :: rest, c.Legible := fun c hc => by
      obtain ⟨_, _, hfits⟩ := hfits c hc
      exact hfits.1
    rw [Path.parse_render_of_separated hlegible (separated_of_gapless hgapless)] at hparse
    cases hparse
    rw [Selectors.matches, List.any_cons, hmatches]
    rfl

end fits

/-! ## 4. Combinations -/

/-- The candidate number `l` of a combination is on level `l` and names the node number `l` of
the way. -/
theorem candidate_of_mem_combinations (htarget : q.document.isElement q.target = true)
    {mode : Breadth} {n : Nat} {path : Path} (hpath : path ∈ combinations ((q.levels mode).take n))
    {l : Nat} {c : Candidate} (hc : path[l]? = some c) :
    c.level = l ∧ ∃ id e, q.way[l]? = some id ∧ q.document.element? id = some e ∧
      c.Names e (q.document.elementIndex id) := by
  have hway : ∀ id ∈ q.way, q.document.isElement id = true := fun id hid => by
    obtain ⟨k, hk⟩ := List.mem_iff_getElem?.1 hid
    exact element_of_way hk htarget
  obtain ⟨hlength, hforall⟩ := List.forall₂_iff_get.1 (forall₂_of_mem_combinations hpath)
  obtain ⟨hl, hget⟩ := List.getElem?_eq_some_iff.1 hc
  have hmem := hforall l hl (hlength ▸ hl)
  rw [List.get_eq_getElem, List.get_eq_getElem] at hmem
  have hlevel : (q.levels mode)[l]? = some ((q.levels mode).take n)[l] := by
    rw [List.getElem_take, List.getElem?_eq_getElem]
  obtain ⟨id, e, hid, he, hbuild⟩ := getElem?_levels hway hlevel
  subst hget
  rw [hbuild] at hmem
  obtain ⟨hdistance, hnames⟩ := Level.names_of_mem_build hmem
  exact ⟨hdistance, id, e, hid, he, hnames⟩

/-- **Every combination is an own path without a gap.** -/
theorem own_of_mem_combinations (htarget : q.document.isElement q.target = true) {mode : Breadth}
    {n : Nat} {path : Path} (hne : (q.levels mode).take n ≠ [])
    (hpath : path ∈ combinations ((q.levels mode).take n)) :
    q.Own path ∧ Gapless path := by
  have hcandidate :=
    fun (l : Nat) (c : Candidate) => candidate_of_mem_combinations (l := l) (c := c) htarget hpath
  have hlevel : ∀ (l : Nat) (hl : l < path.length), path[l].level = l := fun l hl =>
    (hcandidate l path[l] (List.getElem?_eq_getElem hl)).1
  refine ⟨⟨?_, ?_, ?_⟩, ?_⟩
  · have hlength := (forall₂_of_mem_combinations hpath).length_eq
    cases path with
    | nil => exact absurd (List.eq_nil_of_length_eq_zero hlength.symm) hne
    | cons c rest => exact congrArg some (hlevel 0 (Nat.succ_pos _))
  · rw [List.pairwise_iff_getElem]
    intro i j hi hj hlt
    rw [hlevel i hi, hlevel j hj]
    exact hlt
  · intro c hc
    obtain ⟨l, hl⟩ := List.mem_iff_getElem?.1 hc
    obtain ⟨hlevel, h⟩ := hcandidate l c hl
    rw [hlevel]
    exact h
  · rw [Gapless, List.isChain_iff_getElem]
    intro i hi
    rw [hlevel i (Nat.lt_of_succ_lt hi), hlevel (i + 1) hi]

end Quest

end UniqueSelector
