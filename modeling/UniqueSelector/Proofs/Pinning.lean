import UniqueSelector.Proofs.Landmarks
import UniqueSelector.Proofs.Constructed
import UniqueSelector.Proofs.Exhaustion
import UniqueSelector.Proofs.Meaning

/-!
# Pinning — what a candidate with a place tells of a node

A candidate that counts among siblings fits a node only if the node has the same place as the
element it was made from; the one candidate that does not count, `html`, fits one element only. So
along a path that counts on every level, a node that fits has the same places as the target, as far
as the path goes.
-/

namespace UniqueSelector

open Selector Markup

/-! ## 1. Documents from text -/

/-- What is true of a document from text. -/
structure Document.Textual (t : Document) : Prop where
  sound : t.Sound
  landmarked : t.Landmarked
  named : ∀ {id : NodeId} {e : Element}, t.element? id = some e → TagName e.tag

theorem Markup.textual_parse {html : String} (hnull : '\x00' ∉ html.toList) :
    (parse html).Textual where
  sound := sound_parse hnull
  landmarked := landmarked_parse html
  named := tagName_of_parse

namespace Document.Textual

variable {t : Document} (ht : t.Textual)
include ht

theorem nullFree : t.NullFree := ht.sound.nullFree

theorem exists_parent {id : NodeId} (hid : t.isElement id = true) : ∃ p, t.parent id = some p := by
  have hroot := ht.landmarked.rooted.ne_root hid
  obtain ⟨p, -, hp⟩ := ht.landmarked.rooted.attached id hroot (lt_size_of_isElement hid)
  exact ⟨p, hp⟩

theorem exists_elementIndex {id : NodeId} (hid : t.isElement id = true) :
    ∃ i, t.elementIndex id = some i := by
  obtain ⟨p, hp⟩ := ht.exists_parent hid
  exact ht.sound.wellFormed.exists_elementIndex hp

/-- Every element is below the document node. -/
theorem isDescendantOf_root {id : NodeId} (hid : t.isElement id = true) :
    t.isDescendantOf id root = true := by
  rw [ht.sound.wellFormed.isDescendantOf_iff]
  exact ht.landmarked.rooted.exists_ascend id (ht.landmarked.rooted.ne_root hid)
    (lt_size_of_isElement hid)

/-- An element whose parent is no element is the document element. -/
theorem tag_of_parentElement_none {id : NodeId} {e : Element} (he : t.element? id = some e)
    (hnone : t.parentElement id = none) : e.tag = "html" := by
  obtain ⟨p, hp⟩ := ht.exists_parent (isElement_of_element? he)
  rcases ht.sound.parents hp with rfl | hpe
  · exact ht.landmarked.top he hp
  · rw [parentElement, hp, Option.filter_some, if_pos hpe] at hnone
    cases hnone

/-- The only tag with the letters of a landmark is that of the landmark. -/
theorem tag_eq_of_sameLetters {id : NodeId} {e : Element} (he : t.element? id = some e)
    {name : String} (hname : TagName name) (h : sameLetters e.tag name = true) : e.tag = name := by
  rw [sameLetters, beq_iff_eq, (ht.named he).asciiLower_eq, hname.asciiLower_eq] at h
  exact h

theorem eq_of_landmark {x y : NodeId} {d e : Element} (hd : t.element? x = some d)
    (he : t.element? y = some e) (htag : sameLetters d.tag e.tag = true)
    (hlandmark : e.tag ∈ landmarkTags) : x = y := by
  have heq := ht.tag_eq_of_sameLetters hd (ht.named he) htag
  exact ht.landmarked.once hd he heq (heq ▸ hlandmark)

/-- The features of an element can all be written. -/
theorem feature_of_mem_candidates {id : NodeId} {e : Element} (he : t.element? id = some e)
    {s : Settings} {c : Candidate} (hc : c ∈ e.candidates s) :
    ∃ f, e.Has f ∧ f.Sound ∧ c.fragment.toList = f.text := by
  obtain ⟨f, hhas, hsound, htext, -⟩ := Element.has_of_mem_candidates hc
  refine ⟨f, hhas, ?_, htext⟩
  rcases hsound with hsound | rfl
  · exact hsound
  · obtain ⟨letter, letters, htag, hletter⟩ := (ht.sound.elements he).lettered.exists_cons
    exact writable_asciiLower htag hletter

end Document.Textual

/-! ## 2. Places -/

theorem Selector.Nth.eq_of_matches {i j : Nat} (h : (Nth.mk 0 i).matches j = true) : j = i := by
  rw [Nth.matches] at h
  split at h
  · rw [if_pos rfl, beq_iff_eq] at h
    exact Int.ofNat.inj h
  · cases h

theorem Compound.matches_cons {t : Document} {s : Simple} {k : Compound} {y : NodeId}
    (h : Compound.matches (s :: k) t y = true) :
    ∃ d, t.element? y = some d ∧ s.matchesAt t y d = true ∧
      k.all (fun s => s.matchesAt t y d) = true := by
  rw [Compound.matches] at h
  cases hd : t.element? y with
  | none =>
    rw [hd] at h
    cases h
  | some d =>
    rw [hd] at h
    have hall : (s :: k).all (fun s => s.matchesAt t y d) = true := h
    rw [List.all_cons, Bool.and_eq_true] at hall
    exact ⟨d, rfl, hall.1, hall.2⟩

/-- What fits a fragment has its feature and, if there is a place, that place. -/
theorem Fragment.of_matches_compound {t : Document} {f : Fragment} {y : NodeId}
    (h : Compound.matches f.compound t y = true) :
    ∃ d, t.element? y = some d ∧ f.feature.simple.matches d = true ∧
      ∀ i ∈ f.place, t.elementIndex y = some i := by
  obtain ⟨d, hd, hfeature, hplace⟩ := Compound.matches_cons h
  rw [matchesAt_feature] at hfeature
  refine ⟨d, hd, hfeature, fun i hi => ?_⟩
  rw [show f.place = some i from hi, placeSimples, List.all_cons, Bool.and_eq_true] at hplace
  have hpseudo := hplace.1
  rw [Simple.matchesAt, Pseudo.matches] at hpseudo
  split at hpseudo
  · -- The index is there, and it is the one that was asked for.
    change ((t.elementIndex y).map (Nth.mk 0 i).matches).getD false = true at hpseudo
    cases hindex : t.elementIndex y with
    | none =>
      rw [hindex] at hpseudo
      cases hpseudo
    | some j =>
      rw [hindex] at hpseudo
      rw [Nth.eq_of_matches hpseudo]
  · cases hpseudo

/-! ## 3. Candidates that count -/

/-- A place does not help an id. -/
theorem Candidate.not_dispensable_of_id {c : Candidate} {name : String}
    (htext : c.fragment.toList = (Feature.id name).text) : ¬c.isDispensable = true := by
  -- A number sign begins the text.
  rw [isDispensable, htext, Bool.and_eq_true, bne_iff_ne, bne_iff_ne]
  exact fun h => h.2 rfl

/-- Every feature but an id can be counted, except that the text `html` is left as it is. -/
theorem Candidate.isDispensable_of_feature {c : Candidate} {f : Feature} (hf : f.Sound)
    (htext : c.fragment.toList = f.text) (hid : ∀ name, f ≠ .id name) :
    c.isDispensable = true ∨ c.fragment = "html" := by
  by_cases hhtml : c.fragment = "html"
  · exact .inr hhtml
  · left
    have hhead : c.fragment.toList.head? ≠ some '#' := by
      rw [htext]
      cases f with
      | id name => exact absurd rfl (hid name)
      | attr name value => exact (by decide : some '[' ≠ some '#')
      | className name => exact (by decide : some '.' ≠ some '#')
      | any => exact (by decide : some '*' ≠ some '#')
      | tag name =>
        -- What begins a name is no number sign.
        have hstart := startsName_namePieces hf []
        rw [List.append_nil] at hstart
        intro hhead
        rw [Feature.text] at hhead
        obtain ⟨cs, hcs⟩ := List.head?_eq_some_iff.1 hhead
        rw [hcs] at hstart
        exact absurd (startsName_cons hstart) (by decide)
    rw [isDispensable, Bool.and_eq_true, bne_iff_ne, bne_iff_ne]
    exact ⟨hhtml, hhead⟩

/-- The candidate names the element at `id` by the feature `f`, with its place as far as
that helps. -/
structure Candidate.Counts (c : Candidate) (t : Document) (id : NodeId) (f : Feature) : Prop where
  sound : f.Sound
  made : ∃ e c₀, t.element? id = some e ∧ e.Has f ∧ c₀.fragment.toList = f.text ∧
    c.fragment = (Level.preferCounted c₀ (t.elementIndex id)).fragment

/-- **A node that fits a candidate which counts has the same place**, and the feature that the
candidate names. -/
theorem Candidate.Counts.of_matches {t : Document} (ht : t.Textual) {c : Candidate} {id : NodeId}
    {f : Feature} (h : c.Counts t id f) (hid : ∀ name, f ≠ .id name) (hlegible : c.Legible)
    {y : NodeId} (hy : Compound.matches c.compound t y = true) :
    ∃ d, t.element? y = some d ∧ f.simple.matches d = true ∧
      t.elementIndex y = t.elementIndex id := by
  obtain ⟨e, c₀, he, hhas, htext, hfragment⟩ := h.made
  obtain ⟨i, hi⟩ := ht.exists_elementIndex (Document.isElement_of_element? he)
  rw [hi, Level.preferCounted] at hfragment
  by_cases hdispensable : c₀.isDispensable = true
  · -- The place is part of the fragment.
    rw [if_pos hdispensable] at hfragment
    have htext' : c.fragment.toList = f.text ++ placeText (some i) := by
      rw [hfragment, Candidate.toList_nthChild, htext]
    have hsound := Candidate.sound_of_legible h.sound htext' hlegible
    rw [Candidate.compound_eq hsound htext'] at hy
    obtain ⟨d, hd, hfeature, hplace⟩ := Fragment.of_matches_compound hy
    exact ⟨d, hd, hfeature, (hplace i rfl).trans hi.symm⟩
  · -- The fragment is `html`, and there is one such element only.
    rw [if_neg hdispensable] at hfragment
    have hhtml : c₀.fragment = "html" :=
      (Candidate.isDispensable_of_feature h.sound htext hid).resolve_left hdispensable
    have htext' : c.fragment.toList = (Fragment.mk f none).text := by
      rw [hfragment, htext, Fragment.text, placeText, List.append_nil]
    have hcompound :=
      Candidate.compound_eq (f := ⟨f, none⟩) ⟨h.sound, fun i hi => by cases hi⟩ htext'
    have htype : f.simple = .type "html" := by
      have hwritable : Writable "html" := by decide
      have htext'' : c.fragment.toList = (Fragment.mk (.tag "html") none).text := by
        rw [hfragment, hhtml]
        decide
      have hcompound' := Candidate.compound_eq (f := ⟨.tag "html", none⟩)
        ⟨hwritable, fun i hi => by cases hi⟩ htext''
      rw [hcompound] at hcompound'
      have hsimple : (Feature.tag "html").simple = .type "html" := Element.simple_tag (by decide)
      rw [← hsimple]
      exact (List.cons.inj hcompound').1
    rw [hcompound] at hy
    obtain ⟨d, hd, hfeature, -⟩ := Fragment.of_matches_compound hy
    refine ⟨d, hd, hfeature, ?_⟩
    have hown := Element.matches_of_has (ht.nullFree he) (ht.sound.wellFormed.names he) hhas
    rw [htype] at hfeature hown
    have hname := tagName_of_mem_landmarkTags (.head _ : "html" ∈ landmarkTags)
    have htag := ht.tag_eq_of_sameLetters hd hname hfeature
    have htag' := ht.tag_eq_of_sameLetters he hname hown
    rw [ht.landmarked.once hd he (htag.trans htag'.symm) (htag ▸ .head _)]

end UniqueSelector
