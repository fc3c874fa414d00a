import UniqueSelector.Proofs.OwnPaths
import UniqueSelector.Proofs.Targets

/-!
# Own features — whether an element is among those that its candidates describe

A candidate is read as the feature that it writes, but for U+0000, which is read as the replacement.
So it lists its element if that has the feature with the replacement. Without U+0000 there is no
difference, and the element is among those that are listed.
-/

namespace UniqueSelector

open Selector

variable {t : Document} {id : NodeId} {e : Element}

namespace Document

/-- A fragment of an element is a selector, and the element is in its answer if and only if it has
the feature as it is read. -/
theorem exists_queryAll_fragment (hwell : t.WellFormed) (hrooted : t.Rooted)
    (he : t.element? id = some e) {f : Fragment} (hf : f.Sound) (hhas : e.Has f.feature)
    (hplace : f.place = none ∨ f.place = t.elementIndex id) {c : Candidate}
    (htext : c.fragment.toList = f.text) :
    ∃ ids, t.queryAll c.fragment root = .ok ids ∧ (id ∈ ids ↔ e.Has f.feature.asRead) := by
  have hreads : Reads c.fragment.toList f.compound := htext ▸ Fragment.reads hf
  refine ⟨_, queryAll_of_parse (Candidate.parse_of_reads hreads) (.inl rfl), ?_⟩
  have hbelow : id ∈ t.descendants root := by
    rw [hwell.mem_descendants_iff_above]
    exact hrooted.above (isElement_of_element? he)
  have hmatches : Selectors.matches [⟨f.compound, []⟩] t id = Compound.matches f.compound t id := by
    simp only [Selectors.matches, Complex.matches, chainMatches, List.any_cons, List.any_nil,
      Bool.or_false, Bool.and_true]
  rw [List.mem_filter, and_iff_right hbelow, hmatches]
  exact Fragment.matches_compound_iff he (hwell.names he) hhas hplace hf.2

end Document

namespace Markup

/-- Every tag of a document from text can be written as the name of a type. -/
theorem writable_of_parse {html : String} {id : NodeId} {e : Element}
    (h : (parse html).element? id = some e) :
    Writable (asciiLower e.tag) := by
  obtain ⟨letter, letters, htag, hletter⟩ := (spelled_of_parse h).exists_cons
  exact writable_asciiLower htag hletter

/-- **Every candidate of an element of a text is a selector**, and the element is in its answer
if and only if it has the feature of the candidate as this is read, with the replacement for
U+0000. So it is in the answer if no text of the feature has U+0000 in it, and always if the
whole text has none. -/
theorem queryAll_candidate {html : String} {id : NodeId} {e : Element}
    (he : (parse html).element? id = some e)
    (hfew : ∀ i, (parse html).elementIndex id = some i → i < 2 ^ 31) (s : Settings) (mode : Breadth)
    (distance : Nat) {c : Candidate}
    (hc : c ∈ Level.build e ((parse html).elementIndex id) mode distance s) :
    ∃ f : Fragment, e.Has f.feature ∧ (f.place = none ∨ f.place = (parse html).elementIndex id) ∧
      c.fragment.toList = f.text ∧ ∃ ids, (parse html).queryAll c.fragment Document.root = .ok ids ∧
        (id ∈ ids ↔ e.Has f.feature.asRead) ∧ (f.feature.NullFree → id ∈ ids) ∧
        ('\x00' ∉ html.toList → f.feature.NullFree) := by
  obtain ⟨-, f, hhas, hsound, hplace, htext⟩ := Level.names_of_mem_build hc
  -- A tag from text is a name, and the place fits into 32 bits.
  have hf : f.Sound := by
    constructor
    · rcases hsound with hsound | htag
      · exact hsound
      · rw [htag]
        exact writable_of_parse he
    · intro i hi
      rcases hplace with hnone | hindex
      · rw [hnone] at hi
        cases hi
      · exact hfew i (hindex.symm.trans hi)
  obtain ⟨ids, hids, hmem⟩ := Document.exists_queryAll_fragment (wellFormed_parse html)
    (landmarked_parse html).rooted he hf hhas hplace htext
  refine ⟨f, hhas, hplace, htext, ids, hids, hmem, fun hnull => ?_, fun hnull => ?_⟩
  · rw [hmem, Feature.asRead_of_nullFree hnull]
    exact hhas
  · exact Element.nullFree_of_has ((sound_parse hnull).nullFree he) hhas

/-- A paragraph by its tag and its place. -/
theorem queryAll_candidate_paragraph :
    let t := parse "<p id=a></p>"
    let e : Element := ⟨"p", ⟨[⟨"id", "a"⟩]⟩⟩
    let c := (Candidate.mk "p" Cost.forTag 0).nthChild 1
    (t.element? 3 = some e ∧ (∀ i, t.elementIndex 3 = some i → i < 2 ^ 31) ∧
      c ∈ Level.build e (t.elementIndex 3) .all 0 {}) ∧
      ∃ f : Fragment, e.Has f.feature ∧ (f.place = none ∨ f.place = t.elementIndex 3) ∧
        c.fragment.toList = f.text ∧
        ∃ ids, t.queryAll c.fragment Document.root = .ok ids ∧ (3 ∈ ids ↔ e.Has f.feature.asRead) ∧
          (f.feature.NullFree → 3 ∈ ids) ∧
          ('\x00' ∉ "<p id=a></p>".toList → f.feature.NullFree) := by
  intro t e c
  have he : t.element? 3 = some e := by decide +kernel
  have hindex : t.elementIndex 3 = some 1 := by decide +kernel
  have hfew : ∀ i, t.elementIndex 3 = some i → i < 2 ^ 31 := by
    intro i hi
    rw [hindex] at hi
    cases hi
    decide
  have hc : c ∈ Level.build e (t.elementIndex 3) .all 0 {} := by
    rw [hindex]
    decide +kernel
  exact ⟨⟨he, hfew, hc⟩, queryAll_candidate he hfew {} .all 0 hc⟩

/-- The document keeps U+0000 in an id, but no selector has it: the candidate for the id describes
no element, and the search ends in an error. -/
theorem queryAll_candidate_null :
    let t := parse "<p id=\"a\x00\"></p>"
    let e : Element := ⟨"p", ⟨[⟨"id", "a\x00"⟩]⟩⟩
    t.element? 3 = some e ∧ t.elementIndex 3 = some 1 ∧
      (⟨"#a\\0", Cost.forId, 0⟩ : Candidate) ∈ Level.build e (t.elementIndex 3) .all 0 {} ∧
      Selector.parse "#a\\0" = .ok [⟨[.id "a\ufffd"], []⟩] ∧
      t.queryAll "#a\\0" Document.root = .ok [] ∧
      t.selectorFor { threshold := 1 } 3 = .error (.noMatch "#a\\0") := by
  decide +kernel

end Markup

end UniqueSelector
