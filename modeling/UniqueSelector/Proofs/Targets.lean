import UniqueSelector.CommandLine.Session
import UniqueSelector.Proofs.Pinning
import UniqueSelector.Proofs.Settled
import UniqueSelector.Proofs.Structure

/-!
# Targets — what the program looks for lies where it looks

The targets are gathered below one node, and selectors are resolved below another one, chosen by a
rule of its own. The second is the first or lies above it, so no target is refused, and a selector
that is found leads back.
-/

namespace UniqueSelector

open Selector

/-! ## 1. Documents from text -/

namespace Markup

theorem orderly_construct (tokens : List Token) : (construct tokens).Orderly :=
  Construction.orderly_new.run tokens

theorem wellFormed_parse (html : String) : (parse html).WellFormed :=
  (orderly_construct _).nested.wellFormed

theorem structured_parse (html : String) : (parse html).Structured :=
  (orderly_construct _).structured

end Markup

namespace Document

variable {t : Document}

/-- Every element is below the document node. -/
theorem Rooted.above (h : t.Rooted) {id : NodeId} (hid : t.isElement id = true) :
    t.Above root id := by
  rw [above_iff_ascend]
  exact h.exists_ascend id (h.ne_root hid) (lt_size_of_isElement hid)

/-- The document element stands at the top. -/
theorem Structured.parent_html (h : t.Structured) (hwell : t.WellFormed) {id p : NodeId}
    (hid : t.tag? id = some "html") (hparent : t.parent id = some p) : p = root := by
  have helement : t.isElement id = true := by
    obtain ⟨e, he, -⟩ := Option.map_eq_some_iff.1 hid
    exact isElement_of_element? he
  have hmem : id ∈ t.elementChildren p := List.mem_filter.2 ⟨hwell.mem_children.2 hparent, helement⟩
  by_cases hp : p = root
  · exact hp
  · by_cases htop : p ∈ t.elementChildren root
    · -- Only a head and a body are inside of it.
      have hinner := (h.inner p htop).subset (List.mem_map_of_mem hmem)
      rw [hid] at hinner
      exact absurd hinner (by decide)
    · exact absurd hid (h.elsewhere p hp htop id hmem "html" (.head _))

/-- The body is one of the elements below the document element. -/
theorem isElement_of_body {body : NodeId} (h : t.body = some body) : t.isElement body = true := by
  rw [Document.body] at h
  obtain ⟨html, -, hfind⟩ := Option.bind_eq_some_iff.1 h
  exact (List.mem_filter.1 (List.mem_of_find?_eq_some hfind)).2

end Document

/-! ## 2. Where the targets lie -/

/-- Selectors are resolved in the whole document, unless a root was chosen. -/
theorem Settings.queryScope_cases (s : Settings) (t : Document) :
    s.queryScope t = Document.root ∨ s.root = some (s.queryScope t) := by
  rw [queryScope, ground]
  cases hroot : s.root with
  | none => exact .inl rfl
  | some root =>
    by_cases hdefault : root = Document.root ∨ root = t.defaultRoot
    · left
      simp only [if_pos hdefault]
    · right
      simp only [if_neg hdefault]

namespace CommandLine.Arguments

variable {t : Document} {a : Arguments} {root : Option NodeId}

/-- What is chosen as a root is an element. -/
theorem isElement_of_chooseRoot (h : a.chooseRoot t = .ok root) :
    ∀ id ∈ root, t.isElement id = true := by
  rintro id rfl
  rw [chooseRoot] at h
  cases hselector : a.root with
  | none =>
    rw [hselector] at h
    cases h
  | some selector =>
    rw [hselector] at h
    dsimp only at h
    rw [Document.queryOne_eq] at h
    cases hall : t.queryAll selector Document.root with
    | error e =>
      rw [hall] at h
      cases h
    | ok ids =>
      rw [hall] at h
      cases ids with
      | nil => cases h
      | cons first rest =>
        cases h
        obtain ⟨l, -, -, hids⟩ := Document.queryAll_eq_ok.1 hall
        have hmem : id ∈ (t.descendants Document.root).filter (l.matches t) := hids ▸ .head rest
        exact Document.isElement_of_selectors_matches (List.mem_filter.1 hmem).2

section scopes

variable (hroot : ∀ id ∈ root, t.isElement id = true)
include hroot

/-- Targets can be asked for: they lie in the whole document or below an element. -/
theorem targetScope_valid :
    targetScope t root = Document.root ∨ t.isElement (targetScope t root) = true := by
  rw [targetScope]
  cases root with
  | some id => exact .inr (hroot id rfl)
  | none =>
    rw [Option.none_or]
    cases hbody : t.body with
    | none => exact .inl rfl
    | some body => exact .inr (Document.isElement_of_body hbody)

/-- **Selectors are resolved where the targets are gathered, or further up.** -/
theorem atOrAbove_targetScope (hrooted : t.Rooted) :
    t.AtOrAbove ((a.settings root).queryScope t) (targetScope t root) := by
  rcases (a.settings root).queryScope_cases t with hscope | hscope
  · rw [hscope]
    rcases targetScope_valid hroot with htop | helement
    · exact .inl htop.symm
    · exact .inr (hrooted.above helement)
  · -- The targets are gathered below the root that was chosen.
    left
    have hbase : targetScope t (some ((a.settings root).queryScope t)) =
        (a.settings root).queryScope t := rfl
    exact (hbase.symm.trans (congrArg (targetScope t) hscope.symm) : _ = targetScope t root)

/-- The targets are the elements below their scope that fit something. -/
theorem chooseTargets_eq (hselect : ∀ selector ∈ a.select, ∃ l, parse selector = .ok l) :
    ∃ fits : NodeId → Bool, (∀ id, fits id = true → t.isElement id = true) ∧
      a.chooseTargets t root = .ok ((t.descendants (targetScope t root)).filter fits) := by
  rw [chooseTargets]
  cases hselector : a.select with
  | none => exact ⟨t.isElement, fun _ => id, rfl⟩
  | some selector =>
    obtain ⟨l, hl⟩ := hselect selector hselector
    refine ⟨l.matches t, fun _ => Document.isElement_of_selectors_matches, ?_⟩
    dsimp only
    rw [Document.queryAll_of_parse hl (targetScope_valid hroot)]
    rfl

end scopes

end CommandLine.Arguments

/-! ## 3. What becomes of a target -/

namespace Document

variable {t : Document} {s : Settings} {target : NodeId} {e : Element}
  (htarget : t.element? target = some e)
include htarget

/-- The document element is called by its name. -/
theorem selectorFor_html (hhtml : sameLetters e.tag "html" = true) :
    t.selectorFor s target = .ok "html" := by
  have hfind : findSelector t s target = pure "html" := by
    rw [findSelector, htarget]
    exact if_pos hhtml
  rw [selectorFor, hfind]
  rfl

/-- An element below the scope is not refused. -/
theorem not_misplaced_selectorFor (hbelow : t.isDescendantOf target (s.queryScope t) = true)
    {f : Failure} (hfailed : t.selectorFor s target = .error f) : ¬f.Misplaced := by
  by_cases hhtml : sameLetters e.tag "html" = true
  · rw [selectorFor_html htarget hhtml] at hfailed
    cases hfailed
  · rw [selectorFor_eq htarget (Bool.eq_false_iff.2 hhtml) hbelow] at hfailed
    exact Quest.not_misplaced (q := Quest.aim t s target) (isElement_of_element? htarget) hfailed

end Document

theorem Document.resolves_iff {t : Document} {selector : String} {scope target : NodeId} :
    t.resolves selector scope target = true ↔ t.queryOne selector scope = .ok (some target) := by
  rw [resolves]
  cases t.queryOne selector scope with
  | error e => exact iff_of_false Bool.false_ne_true nofun
  | ok found => rw [beq_iff_eq, Except.ok.injEq]

/-- What a report says of its node. -/
structure Report.Truthful (t : Document) (s : Settings) (r : Report) : Prop where
  /-- It carries what the search for the node came to. -/
  selector : r.selector = t.selectorFor s r.node
  /-- It is verified if there is a selector and this leads to the node. -/
  verified : r.verified = true ↔ ∃ selector, r.selector = .ok selector ∧
    t.queryOne selector (s.queryScope t) = .ok (some r.node)

theorem Report.truthful_check (t : Document) (s : Settings) (target : NodeId) :
    (check t s (s.queryScope t) target).Truthful t s where
  selector := rfl
  verified := by
    rw [check]
    cases t.selectorFor s target with
    | error f => exact iff_of_false Bool.false_ne_true (by rintro ⟨_, h, -⟩; cases h)
    | ok selector =>
      refine Document.resolves_iff.trans ⟨fun h => ⟨selector, rfl, h⟩, ?_⟩
      rintro ⟨_, ⟨⟩, h⟩
      exact h

/-- The name of a tag alone fits the elements that have the tag. -/
theorem Selector.matches_type (name : String) (t : Document) (id : NodeId) :
    Selectors.matches [⟨[.type name], []⟩] t id = true ↔
      ∃ d, t.element? id = some d ∧ sameLetters d.tag name = true := by
  simp only [Selectors.matches, Complex.matches, chainMatches, List.any_cons, List.any_nil,
    Bool.or_false, Bool.and_true]
  rw [Compound.matches]
  cases t.element? id with
  | none => simp
  | some d => simp [Simple.matchesAt, Simple.matches]

namespace Markup

variable {html : String} {s : Settings} {target : NodeId} {e : Element}
  (htarget : (parse html).element? target = some e)
include htarget

/-- Nothing but the document element can lie above the document element. -/
theorem queryScope_of_html (hhtml : e.tag = "html")
    (hbelow : (parse html).isDescendantOf target (s.queryScope (parse html)) = true) :
    s.queryScope (parse html) = Document.root := by
  have hwell := wellFormed_parse html
  have htag : (parse html).tag? target = some "html" := by rw [Document.tag?, htarget, ← hhtml]; rfl
  rw [hwell.isDescendantOf_iff_above, Document.above_iff_ascend] at hbelow
  obtain ⟨k, hk⟩ := hbelow
  rw [ascend] at hk
  obtain ⟨p, hparent, hp⟩ := Option.bind_eq_some_iff.1 hk
  obtain rfl := (structured_parse html).parent_html hwell htag hparent
  cases k with
  | zero => exact (Option.some.inj hp).symm
  | succ k =>
    -- The way up ends at the document node.
    rw [ascend, hwell.top] at hp
    cases hp

/-- The name of the document element leads to it. -/
theorem resolves_html (hhtml : e.tag = "html") :
    (parse html).resolves "html" Document.root target = true := by
  have hrooted := (landmarked_parse html).rooted
  have hmatches : ∀ id, Selectors.matches [⟨[.type "html"], []⟩] (parse html) id = true ↔
      id = target := by
    intro id
    rw [matches_type]
    constructor
    · rintro ⟨d, hd, hname⟩
      have htag : d.tag = "html" := by
        rw [← (tagName_of_parse hd).asciiLower_eq]
        exact eq_of_beq hname
      exact (landmarked_parse html).once hd htarget (htag.trans hhtml.symm) (htag ▸ .head _)
    · rintro rfl
      exact ⟨e, htarget, by rw [hhtml]; decide⟩
  have hall := Document.queryAll_of_parse (t := parse html) (by decide +kernel :
    Selector.parse "html" = .ok [⟨[.type "html"], []⟩]) (.inl rfl)
  have habove : target ∈ (parse html).descendants Document.root := by
    rw [(wellFormed_parse html).mem_descendants_iff_above]
    exact hrooted.above (Document.isElement_of_element? htarget)
  -- One node fits, so it is the first.
  have hfirst : ((parse html).descendants Document.root).find?
      (Selectors.matches [⟨[.type "html"], []⟩] (parse html)) = some target := by
    cases hfind : ((parse html).descendants Document.root).find? _ with
    | none => exact absurd ((hmatches target).2 rfl) (List.find?_eq_none.1 hfind target habove)
    | some id => rw [(hmatches id).1 (List.find?_some hfind)]
  rw [Document.resolves, Document.queryOne_eq, hall]
  show (List.head? _ == _) = true
  rw [List.head?_filter, hfirst]
  exact beq_self_eq_true _

/-- **A selector that is found leads back to its element.** -/
theorem resolves_selectorFor (hnull : '\x00' ∉ html.toList)
    (hbelow : (parse html).isDescendantOf target (s.queryScope (parse html)) = true)
    {selector : String} (hfound : (parse html).selectorFor s target = .ok selector) :
    (parse html).resolves selector (s.queryScope (parse html)) target = true := by
  by_cases hhtml : sameLetters e.tag "html" = true
  · have htag : e.tag = "html" :=
      (textual_parse hnull).tag_eq_of_sameLetters htarget
        (tagName_of_mem_landmarkTags (.head _)) hhtml
    rw [Document.selectorFor_html htarget hhtml] at hfound
    cases hfound
    rw [queryScope_of_html htarget htag hbelow]
    exact resolves_html htarget htag
  · have hsound := sound_parse hnull
    have helement := Document.isElement_of_element? htarget
    rw [Document.selectorFor_eq htarget (Bool.eq_false_iff.2 hhtml) hbelow] at hfound
    have hall := Quest.queryAll_selector (q := Quest.aim (parse html) s target) helement
      hsound.wellFormed hsound.nullFree hbelow hfound
    change (parse html).queryAll selector (s.queryScope (parse html)) = .ok [target] at hall
    rw [Document.resolves, Document.queryOne_eq, hall]
    exact beq_self_eq_true _

end Markup

/-! ## 4. All targets -/

namespace CommandLine.Arguments

/-- **The targets that are chosen are elements below the scope of the queries**, in tree order and
each once. There is one report on each of them. None is refused, and each selector that is found
for one leads back to it if the text has no null character. -/
theorem targets_fit_scope (a : Arguments) (html : String) {root : Option NodeId}
    (hroot : a.chooseRoot (Markup.parse html) = .ok root)
    (hselect : ∀ selector ∈ a.select, ∃ l, parse selector = .ok l) :
    let t := Markup.parse html
    let scope := (a.settings root).queryScope t
    ∃ targets, a.chooseTargets t root = .ok targets ∧
      a.survey t = .ok (a.reports t root targets) ∧
      (∀ id ∈ targets, t.isElement id = true ∧ t.isDescendantOf id scope = true) ∧
      targets.Nodup ∧ targets.Pairwise t.Precedes ∧
      (a.reports t root targets).map Report.node = targets ∧
      ∀ r ∈ a.reports t root targets, r.Truthful t (a.settings root) ∧
        (∀ f, r.selector = .error f → ¬f.Misplaced) ∧
        ('\x00' ∉ html.toList → ∀ selector, r.selector = .ok selector →
          r.verified = true ∧ t.queryOne selector scope = .ok (some r.node)) := by
  intro t scope
  have hwell : t.WellFormed := Markup.wellFormed_parse html
  have hroots := isElement_of_chooseRoot hroot
  obtain ⟨fits, hfits, htargets⟩ := chooseTargets_eq hroots hselect
  have hplaced : ∀ id ∈ (t.descendants (targetScope t root)).filter fits,
      t.isElement id = true ∧ t.isDescendantOf id scope = true := by
    intro id hid
    rw [List.mem_filter, hwell.mem_descendants_iff_above] at hid
    have hrooted := (Markup.landmarked_parse html).rooted
    have habove := (atOrAbove_targetScope (a := a) hroots hrooted).trans_above hid.1
    exact ⟨hfits id hid.2, hwell.isDescendantOf_iff_above.2 habove⟩
  have horder := (hwell.pairwise_precedes_descendants (targetScope t root)).filter fits
  refine ⟨_, htargets, ?_, hplaced, hwell.nodup_of_pairwise_precedes horder, horder, ?_, ?_⟩
  · rw [survey, hroot]
    show (a.chooseTargets t root >>= fun targets => pure (a.reports t root targets)) = _
    rw [htargets]
    rfl
  · rw [reports, List.map_map]
    exact List.map_id _
  · intro r hr
    obtain ⟨id, hid, rfl⟩ := List.mem_map.1 hr
    obtain ⟨helement, hbelow⟩ := hplaced id hid
    obtain ⟨e, he⟩ := Option.isSome_iff_exists.1 helement
    have htruthful := Report.truthful_check t (a.settings root) id
    refine ⟨htruthful, fun f hf => Document.not_misplaced_selectorFor he hbelow hf, ?_⟩
    intro hnull selector hselector
    have hfound : t.selectorFor (a.settings root) id = .ok selector :=
      htruthful.selector.symm.trans hselector
    have hleads := Document.resolves_iff.1 (Markup.resolves_selectorFor he hnull hbelow hfound)
    exact ⟨htruthful.verified.2 ⟨selector, hselector, hleads⟩, hleads⟩

/-- The paragraph outside of the chosen element is no target. -/
theorem targets_fit_scope_paragraphs :
    let t := Markup.parse "<main><p></p></main><p></p>"
    let a : Arguments := { root := some "main", select := some "p" }
    let scope := (a.settings (some 3)).queryScope t
    (a.chooseRoot t = .ok (some 3) ∧ a.chooseTargets t (some 3) = .ok [4]) ∧
      ∃ targets, a.chooseTargets t (some 3) = .ok targets ∧
        a.survey t = .ok (a.reports t (some 3) targets) ∧
        (∀ id ∈ targets, t.isElement id = true ∧ t.isDescendantOf id scope = true) ∧
        targets.Nodup ∧ targets.Pairwise t.Precedes ∧
        (a.reports t (some 3) targets).map Report.node = targets ∧
        ∀ r ∈ a.reports t (some 3) targets, r.Truthful t (a.settings (some 3)) ∧
          (∀ f, r.selector = .error f → ¬f.Misplaced) ∧
          ('\x00' ∉ "<main><p></p></main><p></p>".toList → ∀ selector,
            r.selector = .ok selector →
              r.verified = true ∧ t.queryOne selector scope = .ok (some r.node)) := by
  intro t a scope
  have hroot : a.chooseRoot t = .ok (some 3) := by decide +kernel
  have hselect : ∀ selector ∈ a.select, ∃ l, parse selector = .ok l := by
    intro selector h
    cases h
    exact ⟨[⟨[.type "p"], []⟩], by decide +kernel⟩
  exact ⟨⟨hroot, by decide +kernel⟩,
    targets_fit_scope a "<main><p></p></main><p></p>" hroot hselect⟩

end CommandLine.Arguments

end UniqueSelector
