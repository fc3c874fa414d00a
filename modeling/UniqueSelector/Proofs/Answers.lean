import UniqueSelector.Proofs.Meaning
import UniqueSelector.Proofs.TreeOrder
import UniqueSelector.Selector.Query

/-!
# Answers — what a query lists

A query lists the elements strictly below its scope that fit its selectors, in tree order and
each once. The scope does not come into the fitting, so a query in a smaller scope lists those
answers of a query in the whole document that lie below the scope. The query for one element
gives the first of all.
-/

namespace UniqueSelector

open Selector

namespace Document

variable {t : Document} {selector : String} {scope : NodeId}

theorem queryAll_eq_ok {ids : List NodeId} :
    t.queryAll selector scope = .ok ids ↔
      ∃ l, parse selector = .ok l ∧ (scope = root ∨ t.isElement scope = true) ∧
      ids = (t.descendants scope).filter (l.matches t) := by
  rw [queryAll, prepare]
  cases parse selector with
  | error fault =>
    constructor
    · exact fun h => by cases h
    · rintro ⟨l, hl, -⟩
      cases hl
  | ok l =>
    by_cases hscope : scope = root ∨ t.isElement scope = true
    · show (if scope = root ∨ t.isElement scope = true then _ else _ : Except _ _).map _ = _ ↔ _
      rw [if_pos hscope]
      constructor
      · intro h
        cases h
        exact ⟨l, rfl, hscope, rfl⟩
      · rintro ⟨l', hl, -, rfl⟩
        cases hl
        rfl
    · show (if scope = root ∨ t.isElement scope = true then _ else _ : Except _ _).map _ = _ ↔ _
      rw [if_neg hscope]
      constructor
      · exact fun h => by cases h
      · rintro ⟨_, _, h, _⟩
        exact absurd h hscope

/-- The two queries agree: the first answer is the head of all answers. -/
theorem queryOne_eq (t : Document) (selector : String) (scope : NodeId) :
    t.queryOne selector scope = (t.queryAll selector scope).map List.head? := by
  rw [queryOne, queryAll]
  cases t.prepare selector scope with
  | error e => rfl
  | ok found =>
    show Except.ok (found.2.find? _) = .ok (found.2.filter _).head?
    rw [List.head?_filter]

/-- Where a selector is read and the scope is allowed, all that fits is listed. -/
theorem queryAll_of_parse {l : Selectors} (hparse : parse selector = .ok l)
    (hscope : scope = root ∨ t.isElement scope = true) :
    t.queryAll selector scope = .ok ((t.descendants scope).filter (l.matches t)) :=
  queryAll_eq_ok.2 ⟨l, hparse, hscope, rfl⟩

theorem isElement_of_selectors_matches {l : Selectors} {id : NodeId} (h : l.matches t id = true) :
    t.isElement id = true := by
  obtain ⟨s, -, hs⟩ := List.any_eq_true.1 h
  rw [Complex.matches, Bool.and_eq_true] at hs
  exact Compound.isElement_of_matches hs.1

/-- **A query lists the elements below its scope that fit, in tree order.** In a scope below the
document node these are the answers from the whole document that lie below the scope. Whatever the
selector and the scope are, the query for one element gives the first of them, or the same error. -/
theorem query_answers (t : Document) (selector : String) (scope : NodeId) :
    t.queryOne selector scope = (t.queryAll selector scope).map List.head? ∧
      ∀ l : Selectors, t.WellFormed → parse selector = .ok l →
        (scope = root ∨ t.isElement scope = true) →
        ∃ ids, t.queryAll selector scope = .ok ids ∧ ids.Pairwise t.Precedes ∧ ids.Nodup ∧
          (∀ id, id ∈ ids ↔ t.isElement id = true ∧ t.Above scope id ∧ l.matches t id = true) ∧
          (t.Above root scope → ∃ all, t.queryAll selector root = .ok all ∧
            ids = all.filter (t.isDescendantOf · scope)) := by
  refine ⟨queryOne_eq t selector scope, fun l h hparse hscope => ?_⟩
  have horder := (h.pairwise_precedes_descendants scope).filter (l.matches t)
  refine ⟨_, queryAll_of_parse hparse hscope, horder, h.nodup_of_pairwise_precedes horder,
    fun id => ?_, fun habove => ?_⟩
  · rw [List.mem_filter, h.mem_descendants_iff_above]
    exact ⟨fun hid => ⟨isElement_of_selectors_matches hid.2, hid⟩, And.right⟩
  · refine ⟨_, queryAll_of_parse hparse (.inl rfl), ?_⟩
    rw [List.filter_comm, h.filter_descendants habove]

/-- Two paragraphs fit in the document, one of them in the scope; what is outside of the scope
counts for fitting. -/
theorem query_answers_division :
    let t := Markup.parse "<p class=x></p><div><p class=x></p></div>"
    let l : Selectors := [⟨[.class "x"], [(.descendant, [.type "body"])]⟩]
    (t.WellFormed ∧ parse "body .x" = .ok l ∧ t.isElement 4 = true) ∧
      t.queryOne "body .x" 4 = (t.queryAll "body .x" 4).map List.head? ∧
      ∃ ids, t.queryAll "body .x" 4 = .ok ids ∧ ids.Pairwise t.Precedes ∧ ids.Nodup ∧
        (∀ id, id ∈ ids ↔ t.isElement id = true ∧ t.Above 4 id ∧ l.matches t id = true) ∧
        (t.Above root 4 → ∃ all, t.queryAll "body .x" root = .ok all ∧
          ids = all.filter (t.isDescendantOf · 4)) := by
  intro t l
  have hwell : t.WellFormed := (Markup.sound_parse (by decide)).wellFormed
  have hparse : parse "body .x" = .ok l := by decide +kernel
  have hscope : t.isElement 4 = true := by decide +kernel
  have hanswers := query_answers t "body .x" 4
  exact ⟨⟨hwell, hparse, hscope⟩, hanswers.1, hanswers.2 l hwell hparse (.inr hscope)⟩

end Document

end UniqueSelector
