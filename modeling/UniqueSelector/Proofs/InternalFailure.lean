import UniqueSelector.Proofs.Constructed
import UniqueSelector.Proofs.Soundness

/-!
# Internal failures — searches that end with a selector of their own making

A search should never trip over its own selectors. On documents from text it does so in one case
only: a path was shortened so that a number at the end of a fragment swallows the blank behind it.
-/

namespace UniqueSelector

open Selector

/-! ## 1. What went wrong -/

/-- The failure is about a selector that the search has made, not about what it was asked for. -/
def Failure.Internal : Failure → Prop
  | .noMatch _ | .query _ => True
  | .notAnElement _ | .outsideRoot _ _ | .notFound => False

def Exchange.selector : Exchange → String
  | .all selector _ _ | .one selector _ _ => selector

def Transcript.Asks (r : Transcript) (selector : String) : Prop :=
  ∃ e ∈ r.exchanges, e.selector = selector

/-- The text is no selector, or it fits nothing. -/
def Document.Barren (t : Document) (selector : String) (scope : NodeId) : Prop :=
  ∀ ids, t.queryAll selector scope = .ok ids → ids = []

theorem Transcript.not_asks_new (selector : String) : ¬({} : Transcript).Asks selector := by
  rintro ⟨e, he, -⟩
  simp at he

theorem Progress.asks_exchange {r : Progress Unit} {e : Exchange} {selector : String} :
    (r.exchange () e).transcript.Asks selector ↔ r.transcript.Asks selector ∨
      e.selector = selector := by
  show (∃ e' ∈ r.transcript.exchanges.push e, e'.selector = selector) ↔ _
  constructor
  · rintro ⟨e', he', hselector⟩
    rcases Array.mem_push.1 he' with he' | rfl
    · exact .inl ⟨e', he', hselector⟩
    · exact .inr hselector
  · rintro (⟨e', he', hselector⟩ | hselector)
    · exact ⟨e', Array.mem_push.2 (.inl he'), hselector⟩
    · exact ⟨e, Array.mem_push.2 (.inr rfl), hselector⟩

/-! ## 2. Paths without a lost joint -/

namespace Quest

variable {q : Quest}

/-- A path stays an own one when an inner candidate is left out. -/
theorem Own.eraseIdx {path : Path} (h : q.Own path) {i : Nat} (hi : 1 ≤ i) :
    q.Own (path.eraseIdx i) where
  begins := by
    obtain ⟨i, rfl⟩ := Nat.exists_eq_add_of_le' hi
    have hbegins := h.begins
    cases path with
    | nil => exact hbegins
    | cons target rest => exact hbegins
  climbs := h.climbs.sublist (List.eraseIdx_sublist path i)
  names c hc := h.names c (List.mem_of_mem_eraseIdx hc)

section sound

variable (hsound : q.document.Sound) (hfew : ∀ p, (q.document.elementChildren p).length < 2 ^ 31)
include hsound

theorem scope_valid (hbelow : q.document.isDescendantOf q.target q.scope = true) :
    q.scope = Document.root ∨ q.document.isElement q.scope = true := by
  -- The scope is above the target, and only the document node and elements have children.
  rw [Document.isDescendantOf, List.contains_iff_mem, Document.ancestors, mem_follow] at hbelow
  obtain ⟨k, -, hk⟩ := hbelow
  rw [ascend_succ] at hk
  obtain ⟨x, -, hx⟩ := Option.bind_eq_some_iff.1 hk
  exact hsound.parents hx

include hfew

theorem Own.fits {path : Path} (h : q.Own path) {c : Candidate} (hc : c ∈ path) :
    ∃ id, q.way[c.level]? = some id ∧ c.Fits q.document id := by
  obtain ⟨id, e, hid, he, hnames⟩ := h.names c hc
  have helement := hsound.elements he
  obtain ⟨letter, letters, htag, hletter⟩ := helement.lettered.exists_cons
  refine ⟨id, hid,
    hnames.fits he (hsound.nullFree he) helement.attrs.names (writable_asciiLower htag hletter) ?_⟩
  -- The place counts elements below one parent, and these are few.
  intro i hi
  have hparent : ∃ p, q.document.parent id = some p := by
    have hindex := hi
    rw [Document.elementIndex] at hindex
    obtain ⟨p, hp, -⟩ := Option.map_eq_some_iff.1 hindex
    exact ⟨p, hp⟩
  obtain ⟨p, hp⟩ := hparent
  have hid := Document.isElement_of_element? he
  exact Nat.lt_of_le_of_lt (Document.elementIndex_le hsound.wellFormed hp hid hi) (hfew p)

/-- **A path whose joints all stand finds its target**, whatever was left out in between. -/
theorem Own.not_barren {path : Path} (h : q.Own path) (hseparated : path.Separated)
    (hbelow : q.document.isDescendantOf q.target q.scope = true) :
    ¬q.document.Barren path.render q.scope := by
  have hfits := fun c (hc : c ∈ path) => h.fits hsound hfew hc
  have hmatches := h.matches_intended hfits
  have hparse : parse path.render = .ok [path.intended] := by
    obtain ⟨target, rest, rfl, -⟩ := h.exists_cons
    apply Path.parse_render_of_separated _ hseparated
    intro c hc
    obtain ⟨_, _, hfits⟩ := hfits c hc
    exact hfits.1
  have hall := Document.queryAll_eq_ok.2 ⟨_, hparse, scope_valid hsound hbelow, rfl⟩
  intro hbarren
  have hmem : q.target ∈ (q.document.descendants q.scope).filter
      (Selectors.matches [path.intended] q.document) := by
    rw [List.mem_filter, Document.mem_descendants hsound.wellFormed]
    refine ⟨hbelow, ?_⟩
    rw [Selectors.matches, List.any_cons, hmatches]
    rfl
  rw [hbarren _ hall] at hmem
  cases hmem

/-- What the walk combines has no gap, so it finds its target. -/
theorem not_barren_of_mem_combinations (hbelow : q.document.isDescendantOf q.target q.scope = true)
    (htarget : q.document.isElement q.target = true) {mode : Breadth} {n : Nat}
    (hne : (q.levels mode).take n ≠ []) {path : Path}
    (hpath : path ∈ combinations ((q.levels mode).take n)) :
    ¬q.document.Barren path.render q.scope := by
  obtain ⟨hown, hgapless⟩ := own_of_mem_combinations htarget hne hpath
  exact hown.not_barren hsound hfew (separated_of_gapless hgapless) hbelow

end sound

/-! ## 3. Runs of a search -/

/-- A path with a lost joint was asked for, and nothing was found. -/
structure Misled (q : Quest) (r : Transcript) (path : Path) : Prop where
  own : q.Own path
  lost : ¬path.Separated
  asked : r.Asks path.render
  barren : q.document.Barren path.render q.scope

/-- Every selector that was asked for fits something. -/
def Fruitful (q : Quest) (r : Progress Unit) : Prop :=
  ∀ selector, r.transcript.Asks selector → ¬q.document.Barren selector q.scope

theorem Fruitful.not_misled {r : Progress Unit} (h : q.Fruitful r) (path : Path) :
    ¬q.Misled r.transcript path :=
  fun hmisled => h path.render hmisled.asked hmisled.barren

theorem Fruitful.exchange {r : Progress Unit} (h : q.Fruitful r) {e : Exchange}
    (he : ¬q.document.Barren e.selector q.scope) : q.Fruitful (r.exchange () e) := by
  intro selector hasked
  rcases Progress.asks_exchange.1 hasked with hasked | rfl
  · exact h selector hasked
  · exact he

theorem not_barren_of_queryAll {selector : String} {x : NodeId} {ids : List NodeId}
    (h : q.document.queryAll selector q.scope = .ok (x :: ids)) :
    ¬q.document.Barren selector q.scope :=
  fun hbarren => by cases hbarren _ h

section behaves

open Attempt

variable (hsound : q.document.Sound) (hfew : ∀ p, (q.document.elementChildren p).length < 2 ^ 31)
  (hbelow : q.document.isDescendantOf q.target q.scope = true)
include hsound hfew hbelow

/-- Nothing is found for an own path that was just asked for: it has lost a joint. -/
theorem Own.misled {path : Path} (h : q.Own path) (hbarren : q.document.Barren path.render q.scope)
    {r : Progress Unit} {e : Exchange} (he : e.selector = path.render) :
    q.Misled (r.exchange () e).transcript path where
  own := h
  lost hseparated := h.not_barren hsound hfew hseparated hbelow hbarren
  asked := Progress.asks_exchange.2 (.inr he)
  barren := hbarren

/-- As long as everything is found, the search goes on; it fails internally when a lost joint has
misled it. -/
theorem behaves_misled : q.Behaves (Provider.ofDocument q.document) q.Fruitful q.Own q.Lone q.Leads
    fun f r => f.Internal ↔ ∃ path, q.Misled r.transcript path where
  isUnique path hown := by
    have hall : Ends (Provider.ofDocument q.document) q.Fruitful (all path.render q.scope)
        (fun ids r => q.document.queryAll path.render q.scope = .ok ids ∧
          if ids = [] then q.Misled r.transcript path else q.Fruitful r)
        (fun f r => f.Internal ↔ ∃ path, q.Misled r.transcript path) := by
      apply ends_all
      -- An answer with nothing in it is told apart at once: it is what misleads the search.
      · intro r hr ids state hanswer
        have hids : q.document.queryAll path.render q.scope = .ok ids := congrArg Prod.fst hanswer
        refine ⟨hids, ?_⟩
        split
        · next hempty =>
          apply hown.misled hsound hfew hbelow _ rfl
          intro ids' hids'
          rw [hids] at hids'
          cases hids'
          exact hempty
        · next hne =>
          apply hr.exchange
          exact fun hbarren => hne (hbarren ids hids)
      · intro r hr e state hanswer
        have herror : q.document.queryAll path.render q.scope = .error e :=
          congrArg Prod.fst hanswer
        refine iff_of_true trivial ⟨path, hown.misled hsound hfew hbelow ?_ rfl⟩
        intro ids hids
        rw [herror] at hids
        cases hids
    apply hall.bind
    intro ids
    match ids with
    -- The one question that found nothing ends the search.
    | [] => exact ends_throw fun r hr => iff_of_true trivial ⟨path, hr.2⟩
    | [x] => exact ends_pure fun r hr => ⟨hr.2, fun _ => ⟨x, hr.1⟩⟩
    | _ :: _ :: _ => exact ends_pure fun r hr => ⟨hr.2, fun h => by cases h⟩
  isSame path _ hlone := by
    obtain ⟨x, hx⟩ := hlone
    have hone : Ends (Provider.ofDocument q.document) q.Fruitful (one path.render q.scope)
        (fun id r => q.Fruitful r ∧ q.document.queryOne path.render q.scope = .ok id)
        (fun f r => f.Internal ↔ ∃ path, q.Misled r.transcript path) := by
      apply ends_one
      · intro r hr id state hanswer
        exact ⟨hr.exchange (not_barren_of_queryAll hx), congrArg Prod.fst hanswer⟩
      · -- The text was read when it was found to be unique.
        intro r hr e state hanswer
        have herror : q.document.queryOne path.render q.scope = .error e :=
          congrArg Prod.fst hanswer
        rw [Document.queryOne_eq, hx] at herror
        cases herror
    apply hone.bind
    intro id
    refine ends_pure fun r hr => ⟨hr.1, fun htrue => ?_⟩
    rw [Leads, hr.2, eq_of_beq htrue]
  tell _ _ hr := hr
  notFound r hr := iff_of_false id fun ⟨path, hmisled⟩ => hr.not_misled path hmisled

/-- A search that runs fails internally exactly if it is misled. -/
theorem internal_iff_misled (htarget : q.document.isElement q.target = true) :
    (∃ f, (q.selector.outcome (Provider.ofDocument q.document) ()).1 = .error f ∧ f.Internal) ↔
      ∃ path, q.Misled (q.selector.outcome (Provider.ofDocument q.document) ()).2 path := by
  have hshortens : Behaves.Shortens q.Own := fun path i h hi _ => h.eraseIdx hi
  have hstart : q.Fruitful ⟨(), {}⟩ :=
    fun selector hasked => absurd hasked (Transcript.not_asks_new selector)
  have hends := (behaves_misled hsound hfew hbelow).selector hshortens
    (fun path (h : q.Own path ∧ Gapless path) => h.1)
    (fun mode n path hne hpath => own_of_mem_combinations htarget hne hpath) ⟨(), {}⟩ hstart
  unfold Attempt.outcome
  dsimp only
  cases hrun : (Inquiry.run (Provider.ofDocument q.document) q.selector.run ⟨(), {}⟩).1 with
  | ok selector =>
    rw [hrun] at hends
    refine iff_of_false ?_ fun ⟨path, hmisled⟩ => hends.1.not_misled path hmisled
    rintro ⟨f, hf, -⟩
    cases hf
  | error f =>
    rw [hrun] at hends
    refine Iff.trans ?_ hends
    constructor
    · rintro ⟨f', hf', hinternal⟩
      cases hf'
      exact hinternal
    · exact fun hinternal => ⟨f, rfl, hinternal⟩

end behaves

theorem not_misled_new (path : Path) : ¬q.Misled {} path :=
  fun hmisled => Transcript.not_asks_new path.render hmisled.asked

end Quest

/-! ## 4. Documents from text -/

/-- Whatever happens before the search begins is no internal failure. -/
theorem findSelector_internal_iff_misled {t : Document} (hsound : t.Sound)
    (hfew : ∀ p, (t.elementChildren p).length < 2 ^ 31) (s : Settings) {target : NodeId}
    (htarget : t.isElement target = true) :
    (∃ f, ((findSelector t s target).outcome (Provider.ofDocument t) ()).1 = .error f ∧
        f.Internal) ↔
      ∃ path, (Quest.aim t s target).Misled
        ((findSelector t s target).outcome (Provider.ofDocument t) ()).2 path := by
  obtain ⟨e, he⟩ := Option.isSome_iff_exists.1 htarget
  unfold findSelector
  rw [he]
  dsimp only
  by_cases hhtml : sameLetters e.tag "html" = true
  · rw [if_pos hhtml]
    refine iff_of_false ?_ fun ⟨path, hmisled⟩ => Quest.not_misled_new path hmisled
    rintro ⟨f, hf, -⟩
    cases hf
  · rw [if_neg hhtml]
    by_cases hbelow : t.isDescendantOf target (Quest.aim t s target).scope = true
    · rw [if_pos hbelow]
      exact Quest.internal_iff_misled (q := Quest.aim t s target) hsound hfew hbelow htarget
    · rw [if_neg hbelow]
      refine iff_of_false ?_ fun ⟨path, hmisled⟩ => Quest.not_misled_new path hmisled
      rintro ⟨f, hf, hinternal⟩
      cases hf
      exact hinternal

/-- **In a document from text, a search fails internally exactly if a lost joint misleads it.**
Whatever the walk combines is a selector that fits something; only when a path was shortened can a
number swallow the blank behind it, and then the search fails if nothing fits what is read. -/
theorem Markup.internal_failure_iff {html : String} (hnull : '\x00' ∉ html.toList)
    (hfew : ∀ p, ((Markup.parse html).elementChildren p).length < 2 ^ 31) (s : Settings)
    {target : NodeId} (htarget : (Markup.parse html).isElement target = true) :
    let t := Markup.parse html
    let q := Quest.aim t s target
    let run := (findSelector t s target).outcome (Provider.ofDocument t) ()
    (t.isDescendantOf target q.scope = true → ∀ mode n, (q.levels mode).take n ≠ [] →
      ∀ path ∈ combinations ((q.levels mode).take n), ¬t.Barren path.render q.scope) ∧
    ((∃ f, run.1 = .error f ∧ f.Internal) ↔ ∃ path, q.Misled run.2 path) := by
  have hsound := Markup.sound_parse hnull
  constructor
  · intro hbelow mode n hne path hpath
    exact Quest.not_barren_of_mem_combinations (q := Quest.aim _ s target) hsound hfew hbelow
      htarget hne hpath
  · exact findSelector_internal_iff_misled hsound hfew s htarget

/-- Two elements of each kind, and an id that breaks off with a number when it is written. -/
def Markup.snare : String :=
  "<div id=\"é\"><p><i></i></p><b><i></i></b></div><div><p><i></i></p></div>"

theorem Markup.snare_few (p : NodeId) :
    ((Markup.parse snare).elementChildren p).length < 2 ^ 31 := by
  have hsound := Markup.sound_parse (show '\x00' ∉ snare.toList by decide)
  have hsize : (Markup.parse snare).size = 11 := by decide +kernel
  have hlength := Document.length_elementChildren_le hsound.wellFormed p
  rw [hsize] at hlength
  omega

theorem Markup.internal_failure_iff_snare :
    let t := Markup.parse snare
    let q := Quest.aim t { threshold := 1 } 5
    let run := (findSelector t { threshold := 1 } 5).outcome (Provider.ofDocument t) ()
    ('\x00' ∉ snare.toList ∧ (∀ p, (t.elementChildren p).length < 2 ^ 31) ∧ t.isElement 5 = true) ∧
      (t.isDescendantOf 5 q.scope = true → ∀ mode n, (q.levels mode).take n ≠ [] →
        ∀ path ∈ combinations ((q.levels mode).take n), ¬t.Barren path.render q.scope) ∧
      ((∃ f, run.1 = .error f ∧ f.Internal) ↔ ∃ path, q.Misled run.2 path) := by
  have hnull : '\x00' ∉ snare.toList := by decide
  have htarget : (Markup.parse snare).isElement 5 = true := by decide +kernel
  exact ⟨⟨hnull, snare_few, htarget⟩,
    internal_failure_iff hnull snare_few { threshold := 1 } htarget⟩

/-- The first `i` has a selector, `#\E9 > p:nth-child(1) > i:nth-child(1)`, but the search does not
come back with it: without the paragraph, the id becomes `éi`. -/
theorem Markup.selectorFor_snare :
    let t := Markup.parse snare
    ('\x00' ∉ snare.toList ∧ (∀ p, (t.elementChildren p).length < 2 ^ 31) ∧ t.isElement 5 = true) ∧
      t.queryAll "#\\E9 > p:nth-child(1) > i:nth-child(1)" Document.root = .ok [5] ∧
      t.selectorFor { threshold := 1 } 5 = .error (.noMatch "#\\E9 i:nth-child(1)") := by
  refine ⟨⟨by decide, snare_few, by decide +kernel⟩, ?_, ?_⟩
  · decide +kernel
  · decide +kernel

end UniqueSelector
