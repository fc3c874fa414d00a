import UniqueSelector.Proofs.Answers
import UniqueSelector.Proofs.OwnPaths
import UniqueSelector.Proofs.Runs

/-!
# Soundness — a selector that is found belongs to its element

The search only counts the answers to its queries. That the one answer is the target is known for
the paths of the climb because they lead back to where they were made, and for the shorter ones
because they were asked once more.
-/

namespace UniqueSelector

open Selector

/-! ## 1. The document answers -/

/-- The target was refused before a search began. -/
def Failure.Misplaced : Failure → Prop
  | .notAnElement _ | .outsideRoot _ _ => True
  | .notFound | .noMatch _ | .query _ => False

namespace Quest

open Attempt

variable (q : Quest)

/-- The document finds one element only. -/
def Lone (path : Path) : Prop := ∃ x, q.document.queryAll path.render q.scope = .ok [x]

/-- The document finds the target first. -/
def Leads (path : Path) : Prop := q.document.queryOne path.render q.scope = .ok (some q.target)

/-- What the document answers is true of the document, and no answer puts the target in
another place. -/
theorem behaves_ofDocument :
    q.Behaves (Provider.ofDocument q.document) (fun _ => True) (fun _ => True) q.Lone q.Leads
      fun f _ => ¬f.Misplaced where
  isUnique path _ := by
    have hall : Ends (Provider.ofDocument q.document) (fun _ => True) (all path.render q.scope)
        (fun ids _ => q.document.queryAll path.render q.scope = .ok ids)
        (fun f _ => ¬f.Misplaced) :=
      ends_all (fun _ _ ids _ h => congrArg Prod.fst h) fun _ _ _ _ _ => id
    apply hall.bind
    intro ids
    match ids with
    | [] => exact ends_throw fun _ _ => id
    | [x] => exact ends_pure fun _ h => ⟨trivial, fun _ => ⟨x, h⟩⟩
    | _ :: _ :: _ => exact ends_pure fun _ _ => ⟨trivial, fun h => by cases h⟩
  isSame path _ _ := by
    have hone : Ends (Provider.ofDocument q.document) (fun _ => True) (one path.render q.scope)
        (fun id _ => q.document.queryOne path.render q.scope = .ok id) (fun f _ => ¬f.Misplaced) :=
      ends_one (fun _ _ id _ h => congrArg Prod.fst h) fun _ _ _ _ _ => id
    apply hone.bind
    intro id
    refine ends_pure fun _ h => ⟨trivial, fun htrue => ?_⟩
    rw [Leads, h, eq_of_beq htrue]
  tell _ _ _ := trivial
  notFound _ _ := id

variable {q}

/-- A path with one answer that leads to the target answers with the target alone. -/
theorem Lone.queryAll_of_leads {path : Path} (hlone : q.Lone path) (hleads : q.Leads path) :
    q.document.queryAll path.render q.scope = .ok [q.target] := by
  obtain ⟨x, hx⟩ := hlone
  rw [Leads, Document.queryOne_eq, hx] at hleads
  have htarget : x = q.target := by
    injection hleads with hleads
    injection hleads
  rw [hx, htarget]

/-- An own path without a gap has the target among its answers, so one answer is the target. -/
theorem Lone.queryAll_of_own {path : Path} (hlone : q.Lone path) (hwell : q.document.WellFormed)
    (hnull : q.document.NullFree) (hbelow : q.document.isDescendantOf q.target q.scope = true)
    (hown : q.Own path) (hgapless : Gapless path) :
    q.document.queryAll path.render q.scope = .ok [q.target] := by
  obtain ⟨x, hx⟩ := hlone
  obtain ⟨l, hparse, -, hids⟩ := Document.queryAll_eq_ok.1 hx
  have hmem : q.target ∈ [x] := by
    rw [hids, List.mem_filter]
    exact ⟨(Document.mem_descendants hwell).2 hbelow,
      hown.matches_of_parse hwell hnull hgapless hparse⟩
  rw [hx, List.mem_singleton.1 hmem]

section selector

variable (helement : q.document.isElement q.target = true)
include helement

/-- A search comes to the selector of a path with one answer, which is an own path without a gap or
leads to the target, or to a failure that is not about the place of the target. -/
theorem ends_selector : Ends (Provider.ofDocument q.document) (fun _ => True) q.selector
    (fun selector _ => ∃ best, selector = Path.render best ∧ q.Lone best ∧
        (q.Own best ∧ Gapless best ∨ q.Leads best))
    fun f _ => ¬f.Misplaced := by
  have hshortens : Behaves.Shortens fun _ : Path => True := fun _ _ _ _ _ => trivial
  have hends := q.behaves_ofDocument.selector hshortens
    (fun path (_ : q.Own path ∧ Gapless path) => trivial) fun mode n path hne hpath =>
      own_of_mem_combinations helement hne hpath
  refine hends.mono (fun _ _ => trivial) ?_
  rintro selector _ ⟨-, best, hrender, -, hlone, hcases⟩
  exact ⟨best, hrender, hlone, hcases⟩

theorem not_misplaced {f : Failure}
    (hfailed : q.selector.result (Provider.ofDocument q.document) () = .error f) :
    ¬f.Misplaced := by
  have hends := ends_selector helement ⟨(), {}⟩ trivial
  change Ended _ _ (q.selector.result (Provider.ofDocument q.document) ()) _ at hends
  rw [hfailed] at hends
  exact hends

/-- The selector that a search finds has the target alone for its answer. -/
theorem queryAll_selector (hwell : q.document.WellFormed) (hnull : q.document.NullFree)
    (hbelow : q.document.isDescendantOf q.target q.scope = true) {selector : String}
    (hfound : q.selector.result (Provider.ofDocument q.document) () = .ok selector) :
    q.document.queryAll selector q.scope = .ok [q.target] := by
  have hends := ends_selector helement ⟨(), {}⟩ trivial
  change Ended _ _ (q.selector.result (Provider.ofDocument q.document) ()) _ at hends
  rw [hfound] at hends
  obtain ⟨best, rfl, hlone, hcases⟩ := hends
  -- A variant was asked for its first answer; the path from the climb was not and leads back
  -- by itself.
  rcases hcases with ⟨hown, hgapless⟩ | hleads
  · exact hlone.queryAll_of_own hwell hnull hbelow hown hgapless
  · exact hlone.queryAll_of_leads hleads

end selector

end Quest

/-! ## 2. Selectors that are found -/

/-- **A selector that is found fits the target and nothing else in the scope of the queries.** The
document element is left out, which is called by its name whether or not that is unique. -/
theorem Document.query_selectorFor {t : Document} (hwell : t.WellFormed) (hnull : t.NullFree)
    (s : Settings) {target : NodeId} {e : Element} (htarget : t.element? target = some e)
    (hhtml : sameLetters e.tag "html" = false) {selector : String}
    (hfound : t.selectorFor s target = .ok selector) :
    t.queryAll selector (s.queryScope t) = .ok [target] ∧
      t.queryOne selector (s.queryScope t) = .ok (some target) := by
  have hall : t.queryAll selector (s.queryScope t) = .ok [target] := by
    rw [selectorFor, findSelector, htarget] at hfound
    dsimp only at hfound
    rw [hhtml, if_neg (by decide)] at hfound
    split at hfound
    · next hbelow =>
      have helement : t.isElement target = true := by rw [isElement, htarget]; rfl
      exact Quest.queryAll_selector (q := Quest.aim t s target) helement hwell hnull hbelow hfound
    · cases hfound
  refine ⟨hall, ?_⟩
  rw [queryOne_eq, hall]
  rfl

/-- Three levels are climbed to find the first `i`. To leave out the `p` is tried and refused, since
the selector would fit the `i` in the `b` as well. -/
theorem Document.query_selectorFor_repeated :
    let t := Markup.parse "<div id=a><p><i></i></p><b><i></i></b></div><div><p><i></i></p></div>"
    let s : Settings := { threshold := 1 }
    let selector := "#a > p:nth-child(1) > i:nth-child(1)"
    (t.WellFormed ∧ t.NullFree ∧ t.element? 5 = some { tag := "i" }) ∧
      t.selectorFor s 5 = .ok selector ∧ t.queryAll selector (s.queryScope t) = .ok [5] ∧
      t.queryOne selector (s.queryScope t) = .ok (some 5) := by
  intro t s selector
  have hsound : t.Sound := Markup.sound_parse (by decide +kernel)
  have htarget : t.element? 5 = some { tag := "i" } := by decide +kernel
  have hfound : t.selectorFor s 5 = .ok selector := by decide +kernel
  exact ⟨⟨hsound.wellFormed, hsound.nullFree, htarget⟩, hfound,
    query_selectorFor hsound.wellFormed hsound.nullFree s htarget (by decide) hfound⟩

end UniqueSelector
