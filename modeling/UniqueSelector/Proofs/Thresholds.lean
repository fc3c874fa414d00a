import UniqueSelector.Proofs.Completeness
import UniqueSelector.Proofs.Origins

/-!
# Thresholds — what a smaller threshold loses

The narrowest mode has one path only, which every threshold allows: the first candidate of each
level, with its place if that helps. With a threshold of one nothing else is tried. So a smaller
threshold can lose an element exactly if this path fits several elements, which takes an id that is
not unique or a landmark with a class.
-/

namespace UniqueSelector

open Selector Markup

/-! ## 1. The narrowest mode -/

/-- There is one choice from levels with one candidate each. -/
theorem choices_of_singletons {stack : List Level} (h : ∀ level ∈ stack, level.length = 1) :
    choices stack = [stack.flatten] := by
  induction stack with
  | nil => rfl
  | cons level stack ih =>
    obtain ⟨c, rfl⟩ := List.length_eq_one_iff.1 (h level (.head _))
    rw [choices, ih fun level hlevel => h level (.tail _ hlevel)]
    rfl

namespace Level

variable {e : Element} {index : Option Nat} {mode : Breadth} {distance : Nat} {s : Settings}

/-- The narrowest mode keeps the first candidate. -/
theorem build_one {c : Candidate} {found : List Candidate} (hfound : e.candidates s = c :: found) :
    build e index .one distance s = [{ preferCounted c index with level := distance }] := by
  rw [build, hfound]
  rfl

theorem length_build_one : (build e index .one distance s).length = 1 := by
  obtain ⟨c, found, hfound⟩ := List.exists_cons_of_ne_nil (e.candidates_ne_nil s)
  rw [build_one hfound, List.length_singleton]

theorem preferCounted_of_not_dispensable {c : Candidate} (h : ¬c.isDispensable = true)
    (index : Option Nat) :
    preferCounted c index = c := by
  cases index with
  | none => rfl
  | some i => rw [preferCounted, if_neg h]

/-- What has one candidate counted and not counted has no place that helps. -/
theorem withCounted_eq_of_length {c : Candidate} {found : Level} {index : Option Nat}
    (h : (withCounted (c :: found) index).length = 1) :
    withCounted (c :: found) index = [preferCounted c index] := by
  cases index with
  | none =>
    rw [withCounted, List.length_cons, Nat.succ_inj, List.length_eq_zero_iff] at h
    rw [withCounted, h]
    rfl
  | some i =>
    rw [withCounted, List.length_append, List.length_cons] at h
    have hfound : found = [] := List.eq_nil_of_length_eq_zero (by omega)
    have hcounted : counted (c :: found) i = [] := List.eq_nil_of_length_eq_zero (by omega)
    rw [withCounted, hcounted, hfound, List.append_nil, preferCounted_of_not_dispensable]
    intro hdispensable
    rw [counted, List.filter_cons_of_pos hdispensable] at hcounted
    cases hcounted

/-- A mode that keeps one candidate keeps the same as the narrowest. -/
theorem build_eq_one (h : (build e index mode distance s).length = 1) :
    build e index mode distance s = build e index .one distance s := by
  obtain ⟨c, found, hfound⟩ := List.exists_cons_of_ne_nil (e.candidates_ne_nil s)
  rw [build_one hfound]
  rw [build, List.length_map, hfound] at h
  rw [build, hfound]
  cases mode with
  | all =>
    rw [ofCandidates] at h ⊢
    rw [withCounted_eq_of_length h]
    rfl
  | two =>
    rw [ofCandidates, List.take_succ_cons, List.take_zero] at h ⊢
    rw [withCounted_eq_of_length h]
    rfl
  | one => rfl

end Level

namespace Quest

variable {q : Quest}

/-- The one path of the narrowest mode. -/
def narrowest (q : Quest) : Path := (q.levels .one).flatten

section narrowest

variable (htarget : q.document.isElement q.target = true)
include htarget

theorem length_of_mem_levels_one {level : Level} (h : level ∈ q.levels .one) :
    level.length = 1 := by
  obtain ⟨l, hl⟩ := List.mem_iff_getElem?.1 h
  obtain ⟨id, e, -, -, rfl⟩ := getElem?_levels (fun id hid => element_of_mem_way htarget hid) hl
  exact Level.length_build_one

theorem choices_levels_one : choices (q.levels .one) = [q.narrowest] :=
  choices_of_singletons fun _ hlevel => length_of_mem_levels_one htarget hlevel

/-- The candidate number `l` of the narrowest path is the first one of its element, with its place
if that helps. -/
theorem getElem?_narrowest {l : Nat} {id : NodeId} {e : Element} (hid : q.way[l]? = some id)
    (he : q.document.element? id = some e) : ∃ c₀ ∈ (e.candidates q.settings).head?, ∃ c,
      q.narrowest[l]? = some c ∧
        c.fragment = (Level.preferCounted c₀ (q.document.elementIndex id)).fragment := by
  obtain ⟨c₀, found, hfound⟩ := List.exists_cons_of_ne_nil (e.candidates_ne_nil q.settings)
  refine ⟨c₀, by rw [hfound]; rfl, ?_⟩
  have hpath : q.narrowest ∈ choices (q.levels .one) := by
    rw [choices_levels_one htarget]
    exact .head _
  have hlevel : (q.levels .one)[l]? = _ := getElem?_levels_of_way htarget hid he
  rw [Level.build_one hfound] at hlevel
  obtain ⟨hlength, hforall⟩ := List.forall₂_iff_get.1 (mem_choices.1 hpath)
  obtain ⟨hl, hget⟩ := List.getElem?_eq_some_iff.1 hlevel
  have hmem := hforall l (hlength ▸ hl) hl
  rw [List.get_eq_getElem, List.get_eq_getElem, hget, List.mem_singleton] at hmem
  exact ⟨_, List.getElem?_eq_getElem (hlength ▸ hl), by rw [hmem]⟩

/-- A mode that allows one combination only tries the same as the narrowest. -/
theorem take_levels_eq {mode : Breadth} {n : Nat}
    (h : combinationCount ((q.levels mode).take n) ≤ 1) :
    (q.levels mode).take n = (q.levels .one).take n := by
  apply List.ext_getElem?
  intro l
  rw [List.getElem?_take, List.getElem?_take]
  split
  · next hl =>
    cases hid : q.way[l]? with
    | none =>
      have hnone : ∀ mode, (q.levels mode)[l]? = none := by
        intro mode
        rw [List.getElem?_eq_none_iff, length_levels htarget]
        exact List.getElem?_eq_none_iff.1 hid
      rw [hnone, hnone]
    | some id =>
      obtain ⟨e, he⟩ := Option.isSome_iff_exists.1 (element_of_way hid htarget)
      have hlevel : (q.levels mode)[l]? = _ := getElem?_levels_of_way htarget hid he
      have htake : ((q.levels mode).take n)[l]? =
          some (Level.build e (q.document.elementIndex id) mode l q.settings) := by
        rw [List.getElem?_take, if_pos hl, hlevel]
      have hone := length_of_combinationCount_le_one
        (fun level hlevel => levels_ne_nil (List.mem_of_mem_take hlevel)) h
        (List.mem_of_getElem? htake)
      rw [hlevel, getElem?_levels_of_way htarget hid he, Level.build_eq_one hone]
  · rfl

/-! ## 2. Searches -/

variable (hwell : q.document.WellFormed) (hway : q.way ≠ [])
include hwell hway

/-- Whatever finds nothing has tried the narrowest path. -/
theorem shared_narrowest (hthreshold : 1 ≤ q.settings.threshold)
    (h : q.document.settle (q.uniquePath .all) = .ok none) : q.Shared q.narrowest := by
  have hproduct : ((q.levels .one).map List.length).prod ≤ q.settings.threshold := by
    rw [← length_choices, choices_levels_one htarget]
    exact hthreshold
  have hshared :=
    (settle_climb_none hwell htarget hway hproduct).1 (settle_uniquePath_none.1 h .one)
  apply hshared
  rw [choices_levels_one htarget]
  exact .head _

omit hway in
/-- With a threshold of one nothing but the narrowest path and its beginnings is tried. -/
theorem settle_uniquePath_none_of_narrowest (hthreshold : q.settings.threshold = 1)
    (h : q.Shared q.narrowest) :
    q.document.settle (q.uniquePath .all) = .ok none := by
  rw [settle_uniquePath_none]
  intro mode
  apply settle_climb_of_fruitless
  intro n hne
  by_cases hcount : combinationCount ((q.levels mode).take n) ≤ 1
  · right
    rw [take_levels_eq htarget hcount] at hne ⊢
    intro path hpath
    apply shared_of_mem_choices_take hwell htarget _ hne hpath
    intro path hpath
    rw [choices_levels_one htarget, List.mem_singleton] at hpath
    exact hpath ▸ h
  · left
    rw [hthreshold]
    exact Nat.lt_of_not_le hcount

end narrowest

end Quest

/-! ## 3. Paths that fit one element only -/

/-- The element has an id that can be written. -/
def Element.Identified (e : Element) : Prop := ∃ name, e.id? = some name ∧ Writable name

namespace Element

variable {e : Element} {s : Settings} {c : Candidate}

theorem head?_candidates_of_id (haccepts : ∀ name, s.acceptsId name = true) {name : String}
    (hid : e.id? = some name) (hname : Writable name) (hc : c ∈ (e.candidates s).head?) :
    c.fragment.toList = (Feature.id name).text := by
  obtain ⟨others, hfeatures⟩ := exists_features_of_id hid (haccepts name) hname
  rw [candidates_eq_map, hfeatures] at hc
  cases hc
  exact Feature.toList_candidate _

theorem writtenName?_eq_none {name : String} (h : ¬Writable name) : writtenName? name = none := by
  rw [writtenName?_eq, if_neg h]

theorem idCandidate?_eq_none (h : ¬e.Identified) : e.idCandidate? s = none := by
  by_contra hsome
  obtain ⟨c, hc⟩ := Option.ne_none_iff_exists'.1 hsome
  simp only [idCandidate?, Option.bind_eq_bind, Option.bind_eq_some_iff] at hc
  obtain ⟨name, hid, written, hwritten, -⟩ := hc
  exact h ⟨name, (Option.filter_eq_some_iff.1 hid).1, (eq_escapeName_of_writtenName? hwritten).1⟩

theorem attributeCandidates_eq_nil (h : ∀ name value, s.acceptsAttribute name value = false) :
    e.attributeCandidates s = [] := by
  rw [attributeCandidates, List.filterMap_eq_nil_iff]
  intro a _
  rw [attributeCandidate?, h, if_neg Bool.false_ne_true]

theorem classCandidates_eq_nil (h : ∀ name ∈ e.classes, ¬Writable name) :
    e.classCandidates s = [] := by
  rw [classCandidates, List.filterMap_eq_nil_iff]
  intro name hname
  rw [classCandidate?, writtenName?_eq_none (h name hname), Option.map_none]
  split <;> rfl

/-- Without an id, classes and attributes the tag comes first. -/
theorem head?_candidates_of_tag (htags : ∀ name, s.acceptsTag name = true)
    (hid : e.idCandidate? s = none) (hattributes : e.attributeCandidates s = [])
    (hclasses : e.classCandidates s = []) (hc : c ∈ (e.candidates s).head?) :
    c.fragment.toList = (Feature.tag (asciiLower e.tag)).text := by
  apply toList_of_tagCandidate? (s := s)
  have htag : ∃ tag, e.tagCandidate? s = some tag := by
    rw [tagCandidate?]
    exact ⟨_, if_pos (htags _)⟩
  obtain ⟨tag, htag⟩ := htag
  rw [candidates, hid, hattributes, hclasses, htag] at hc
  cases hc
  exact htag

end Element

namespace Quest

variable {q : Quest}

/-- The nearest id on the way is that of no other element. -/
def PinnedById (q : Quest) : Prop :=
  ∃ (l : Nat) (z : NodeId) (e : Element), q.way[l]? = some z ∧ q.document.element? z = some e ∧
    e.Identified ∧
    (∀ y d, q.document.element? y = some d → d.id? = e.id? → y = z) ∧
    ∀ i < l, ∀ id d, q.way[i]? = some id → q.document.element? id = some d → ¬d.Identified

/-- There is no id on the way, and no class at its end. -/
def PinnedByTag (q : Quest) : Prop :=
  (∀ id ∈ q.way, ∀ e, q.document.element? id = some e → ¬e.Identified) ∧
    ∀ z e, q.way.getLast? = some z → q.document.element? z = some e →
    ∀ name ∈ e.classes, ¬Writable name

section pinned

variable (ht : q.document.Textual) (htarget : q.document.isElement q.target = true)
include ht htarget

/-- Without an id the narrowest path counts. -/
theorem narrowest_counts {l : Nat} {id : NodeId} {e : Element} (hid : q.way[l]? = some id)
    (he : q.document.element? id = some e) (hnone : ¬e.Identified) :
    ∃ c f, q.narrowest[l]? = some c ∧ c.Counts q.document id f ∧ ∀ name, f ≠ .id name := by
  obtain ⟨c₀, hc₀, c, hc, hfragment⟩ := getElem?_narrowest htarget hid he
  obtain ⟨f, hhas, hsound, htext⟩ := ht.feature_of_mem_candidates he (List.mem_of_head? hc₀)
  refine ⟨c, f, hc, ⟨hsound, e, c₀, he, hhas, htext, hfragment⟩, ?_⟩
  rintro name rfl
  exact hnone ⟨name, hhas⟩

/-- If the narrowest path counts up to a candidate that fits one element only, then it fits the
target only. -/
theorem not_shared_narrowest (hway : q.way ≠ []) {l : Nat} {z : NodeId} (hz : q.way[l]? = some z)
    (hpinned : ∀ c, q.narrowest[l]? = some c → c.Legible →
      ∀ y, Compound.matches c.compound q.document y = true → y = z)
    (hbelow : ∀ i < l, ∀ id e, q.way[i]? = some id → q.document.element? id = some e →
      ¬e.Identified) :
    ¬q.Shared q.narrowest := by
  intro hshared
  have hpath : q.narrowest ∈ choices (q.levels .one) := by
    rw [choices_levels_one htarget]
    exact .head _
  obtain ⟨hown, hgapless⟩ := own_of_mem_choices htarget hway hpath
  obtain ⟨hlegible, x, hx, -, helement, hfits⟩ :=
    hown.exists_other ht.sound.wellFormed hgapless hshared
  have hxz : ascend q.document.parentElement l x = some z := by
    obtain ⟨e, he⟩ := Option.isSome_iff_exists.1 (element_of_way hz htarget)
    obtain ⟨-, -, c, hc, -⟩ := getElem?_narrowest htarget hz he
    obtain ⟨y, hy, hmatches⟩ := hfits l c hc
    rw [← hpinned c hc (hlegible c (List.mem_of_getElem? hc)) y hmatches]
    exact hy
  apply hx
  apply eq_target ht.sound.wellFormed htarget hz helement hxz
  intro i hi id y hid hy
  obtain ⟨e, he⟩ := Option.isSome_iff_exists.1 (element_of_way hid htarget)
  obtain ⟨c, f, hc, hcounts, hf⟩ := narrowest_counts ht htarget hid he (hbelow i hi id e hid he)
  obtain ⟨y', hy', hmatches⟩ := hfits i c hc
  rw [hy] at hy'
  cases hy'
  obtain ⟨-, -, -, hindex⟩ :=
    hcounts.of_matches ht hf (hlegible c (List.mem_of_getElem? hc)) hmatches
  exact hindex

/-- An id that no other element has, the nearest on the way, is enough. -/
theorem PinnedById.not_shared (h : q.PinnedById) (hids : ∀ name, q.settings.acceptsId name = true)
    (hway : q.way ≠ []) : ¬q.Shared q.narrowest := by
  obtain ⟨l, z, e, hz, he, hid, honly, hbelow⟩ := h
  apply not_shared_narrowest ht htarget hway hz _ hbelow
  intro c hc _ y hy
  obtain ⟨name, hname, hwritable⟩ := hid
  obtain ⟨c₀, hc₀, c', hc', hfragment⟩ := getElem?_narrowest htarget hz he
  rw [hc] at hc'
  cases hc'
  have htext₀ := Element.head?_candidates_of_id hids hname hwritable hc₀
  rw [Level.preferCounted_of_not_dispensable (Candidate.not_dispensable_of_id htext₀)] at hfragment
  have htext : c.fragment.toList = (Fragment.mk (.id name) none).text := by
    rw [hfragment, htext₀, Fragment.text, placeText, List.append_nil]
  rw [Candidate.compound_eq (f := ⟨.id name, none⟩) ⟨hwritable, fun i hi => by cases hi⟩ htext]
    at hy
  obtain ⟨d, hd, hfeature, -⟩ := Fragment.of_matches_compound hy
  rw [Element.simple_id (Element.notMem_value (ht.nullFree he) hname), Simple.matches,
    beq_iff_eq] at hfeature
  exact honly y d hd (hfeature.trans hname.symm)

/-- Without any id on the way a landmark at its end that is called by its tag is enough. -/
theorem PinnedByTag.not_shared (h : q.PinnedByTag)
    (htags : ∀ name, q.settings.acceptsTag name = true)
    (hattributes : ∀ name value, q.settings.acceptsAttribute name value = false) (hway : q.way ≠ [])
    (hstop : ∀ p ∈ q.stop, ∃ d, q.document.element? p = some d ∧ d.tag = "html") :
    ¬q.Shared q.narrowest := by
  obtain ⟨hids, hclasses⟩ := h
  obtain ⟨k, z, e, hk, hz, he, hlandmark⟩ := exists_landmark ht htarget hway hstop
  have hlast : q.way.getLast? = some z := by
    rw [List.getLast?_eq_getElem?, hk]
    exact hz
  apply not_shared_narrowest ht htarget hway hz _ fun i _ id e hid =>
    hids id (List.mem_of_getElem? hid) e
  intro c hc hlegible y hy
  obtain ⟨c₀, hc₀, c', hc', hfragment⟩ := getElem?_narrowest htarget hz he
  rw [hc] at hc'
  cases hc'
  have htext := Element.head?_candidates_of_tag htags
    (Element.idCandidate?_eq_none (hids z (List.mem_of_getElem? hz) e he))
    (Element.attributeCandidates_eq_nil hattributes)
    (Element.classCandidates_eq_nil (hclasses z e hlast he)) hc₀
  obtain ⟨letter, letters, htag, hletter⟩ := (ht.sound.elements he).lettered.exists_cons
  have hcounts : c.Counts q.document z (.tag (asciiLower e.tag)) :=
    ⟨writable_asciiLower htag hletter, e, c₀, he, rfl, htext, hfragment⟩
  obtain ⟨d, e', hd, he', hletters, -⟩ := hcounts.alike ht he hlegible hy
  rw [he] at he'
  cases he'
  exact ht.eq_of_landmark hd he hletters hlandmark

end pinned

/-! ## 4. Thresholds -/

theorem levelsAlong_aim (t : Document) (target : NodeId) (m : Nat) (mode : Breadth) (distance : Nat)
    (ids : List NodeId) : (aim t { threshold := m } target).levelsAlong mode distance ids =
      (aim t {} target).levelsAlong mode distance ids := by
  induction ids generalizing distance with
  | nil => rfl
  | cons id ids ih =>
    rw [levelsAlong, levelsAlong, ih]
    rfl

/-- The thresholds differ, but the ways, the levels and the answers do not. -/
theorem shared_narrowest_aim (t : Document) (target : NodeId) (m : Nat) :
    (aim t { threshold := m } target).Shared (aim t { threshold := m } target).narrowest ↔
      (aim t {} target).Shared (aim t {} target).narrowest := by
  rw [narrowest, narrowest, levels, levels, levelsAlong_aim]
  exact Iff.rfl

end Quest

namespace Markup

/-- **A smaller threshold loses an element exactly if the narrowest path fits several elements.** It
does not if the nearest id on the way is unique, nor if there is no id and the landmark at the end
has no class. -/
theorem selectorFor_threshold {html : String} (hnull : '\x00' ∉ html.toList) {target : NodeId}
    {e : Element} (htarget : (parse html).element? target = some e)
    (hhtml : sameLetters e.tag "html" = false) :
    let t := parse html
    let q := Quest.aim t {} target
    (∀ n,
        1 ≤ n → ((∃ m, 1 ≤ m ∧ m ≤ n ∧ t.selectorFor { threshold := m } target = .error .notFound) ↔
        q.Shared q.narrowest)) ∧
      (q.PinnedById ∨ q.PinnedByTag → ¬q.Shared q.narrowest) := by
  intro t q
  have ht : t.Textual := textual_parse hnull
  have helement : t.isElement target = true := by rw [Document.isElement, htarget]; rfl
  have hstop : ∀ p ∈ q.stop, ∃ d, t.element? p = some d ∧ d.tag = "html" :=
    Quest.stop_aim ht rfl target
  have hway : q.way ≠ [] := Quest.way_ne_nil_of_stop (q := q) htarget hhtml hstop
  have hnotFound : ∀ m, t.selectorFor { threshold := m } target = .error .notFound ↔
      t.settle ((Quest.aim t { threshold := m } target).uniquePath .all) = .ok none := fun m =>
    Document.selectorFor_notFound htarget hhtml (ht.isDescendantOf_root helement)
  constructor
  · intro n hn
    constructor
    · rintro ⟨m, hm, -, h⟩
      exact (Quest.shared_narrowest_aim t target m).1 (Quest.shared_narrowest helement
        ht.sound.wellFormed hway hm ((hnotFound m).1 h))
    · intro hshared
      refine ⟨1, Nat.le_refl 1, hn, (hnotFound 1).2 ?_⟩
      exact Quest.settle_uniquePath_none_of_narrowest
        (q := Quest.aim t { threshold := 1 } target) helement ht.sound.wellFormed rfl
        ((Quest.shared_narrowest_aim t target 1).2 hshared)
  · rintro (hid | htag)
    · exact hid.not_shared (q := q) ht helement (fun _ => rfl) hway
    · exact htag.not_shared (q := q) ht helement (fun _ => rfl) (fun _ _ => rfl) hway hstop

/-- Two paragraphs with one id. -/
def namesakes : String := "<p id=a class=x></p><p id=a class=y></p>"

theorem selectorFor_threshold_namesakes :
    let t := parse namesakes
    let q := Quest.aim t {} 3
    (∀ n, 1 ≤ n → ((∃ m, 1 ≤ m ∧ m ≤ n ∧ t.selectorFor { threshold := m } 3 = .error .notFound) ↔
        q.Shared q.narrowest)) ∧
      (q.PinnedById ∨ q.PinnedByTag → ¬q.Shared q.narrowest) := by
  have hnull : '\x00' ∉ namesakes.toList := by decide
  have htarget : (parse namesakes).element? 3 =
      some { tag := "p", attrs := ⟨[⟨"id", "a"⟩, ⟨"class", "x"⟩]⟩ } := by decide +kernel
  exact selectorFor_threshold hnull htarget (by decide)

/-- With a threshold of one the first paragraph is not found, since its id comes first and that is
not unique; with the default threshold it has a selector. -/
theorem selectorFor_namesakes :
    let t := parse namesakes
    ('\x00' ∉ namesakes.toList ∧
        t.element? 3 = some { tag := "p", attrs := ⟨[⟨"id", "a"⟩, ⟨"class", "x"⟩]⟩ }) ∧
      (∃ selector, t.selectorFor { threshold := 1000 } 3 = .ok selector) ∧
      t.selectorFor { threshold := 1 } 3 = .error .notFound := by
  intro t
  have hnull : '\x00' ∉ namesakes.toList := by decide
  have htarget : t.element? 3 = some { tag := "p", attrs := ⟨[⟨"id", "a"⟩, ⟨"class", "x"⟩]⟩ } := by
    decide +kernel
  refine ⟨⟨hnull, htarget⟩, ?_, by decide +kernel⟩
  have ht : t.Textual := textual_parse hnull
  have helement : t.isElement 3 = true := by rw [Document.isElement, htarget]; rfl
  have hbelow : t.isDescendantOf 3 Document.root = true := ht.isDescendantOf_root helement
  have hfew : ∀ p, (t.elementChildren p).length < 2 ^ 31 := by
    intro p
    have hsize : t.size = 5 := by decide +kernel
    have hlength := Document.length_elementChildren_le ht.sound.wellFormed p
    rw [hsize] at hlength
    omega
  have hway : (Quest.aim t {} 3).way.length = 2 := by decide +kernel
  have hne : (Quest.aim t {} 3).way ≠ [] := by
    rw [← List.length_pos_iff, hway]
    decide
  have hproduct : (((Quest.aim t {} 3).levels .all).map List.length).prod ≤ 1000 := by
    decide +kernel
  have hstop := Quest.stop_aim (s := {}) ht rfl 3
  obtain ⟨path, hpath⟩ := Quest.exists_uniquePath (q := Quest.aim t {} 3) ht hfew helement hbelow
    hne (fun _ => rfl) hproduct
    fun x hx => hx.eq_target_of_stop (q := Quest.aim t {} 3) ht helement hne hstop
  have hselector : t.selectorFor {} 3 = t.settle (Quest.aim t {} 3).selector :=
    Document.selectorFor_eq htarget (by decide) hbelow
  obtain ⟨selector, hfound⟩ :=
    Quest.settle_selector_of_short (q := Quest.aim t {} 3) helement (Nat.le_of_eq hway) hpath
  exact ⟨selector, hselector.trans hfound⟩

end Markup

end UniqueSelector
