import UniqueSelector.Markup.Construction
import UniqueSelector.Proofs.Breadths
import UniqueSelector.Proofs.Completeness
import UniqueSelector.Proofs.Turns

/-!
# Own ids — an id that no other element has is the whole selector

An id costs nothing and comes first, so it is tried before everything else. If the target has too
many other candidates to be searched, the next mode keeps nothing but the id. Either way the first
query decides, and a path of one candidate leaves nothing to shorten.
-/

namespace UniqueSelector

open Selector

/-! ## 1. The first path -/

/-- Paths of one candidate cost more if the candidate does. -/
theorem Path.cost_le_of_candidate {c d : Candidate} (hc : ∃ m, c.cost = .finite false m)
    (hd : ∃ n, d.cost = .finite false n) (hle : c.cost ≤ d.cost) :
    Path.cost [c] ≤ Path.cost [d] := by
  obtain ⟨m, hm⟩ := hc
  obtain ⟨n, hn⟩ := hd
  rw [hm, hn, Cost.finite_le_finite] at hle
  show Cost.finite true 0 + c.cost ≤ Cost.finite true 0 + d.cost
  rw [hm, hn, Cost.start_add, Cost.start_add, Cost.ofEighths_add, Cost.ofEighths_add]
  exact Cost.ofEighths_mono (Nat.add_le_add_left hle 0)

namespace Quest

variable {q : Quest} {p : Provider σ} {s : σ} {answers : String → NodeId → Answer (List NodeId)}
  {c : Candidate} {others : Level} {path : Path} {result : Except Failure Finding}

/-- What a search comes to if the path is the first that does not fit several elements. -/
def Decides (q : Quest) (answers : String → NodeId → Answer (List NodeId)) (path : Path)
    (result : Except Failure Finding) : Prop :=
  (q.Single answers path ∧ result = .ok (.unique path)) ∨
    ∃ f, q.Fails answers path f ∧ result = .error f

theorem Decides.ne_ambiguous (h : q.Decides answers path result) : result ≠ .ok .ambiguous := by
  rcases h with ⟨-, rfl⟩ | ⟨f, -, rfl⟩
  · exact fun h => by cases h
  · exact fun h => by cases h

theorem Decides.ne_none (h : q.Decides answers path result) :
    result.map Finding.path? ≠ .ok none := by
  rcases h with ⟨-, rfl⟩ | ⟨f, -, rfl⟩
  · exact fun h => by cases h
  · exact fun h => by cases h

/-- The first candidate of a level is tried first if no other makes a cheaper path. -/
theorem first_of_cheapest (hcheapest : ∀ d ∈ c :: others, Path.cost [c] ≤ Path.cost [d]) :
    q.First answers [c :: others] [0] := by
  refine ⟨.cons (Nat.succ_pos _) .nil, fun js hjs hahead => ?_⟩
  cases hjs with
  | @cons _ j _ js hj hrest =>
    cases hrest
    rcases hahead with ⟨hle, hne⟩ | ⟨-, hlt⟩
    · rw [Odometer.select_cons hj] at hle hne
      exact absurd (Cost.le_antisymm hle (hcheapest _ (List.getElem_mem hj))) hne
    · exact absurd hlt (Odometer.not_lt_zeros (.cons hj .nil))

section answers

variable
  (hanswers : ∀ selector scope state, (p.all selector scope state).1 = answers selector scope)
  (hcheapest : ∀ d ∈ c :: others, Path.cost [c] ≤ Path.cost [d])
  (hdecides : q.Decides answers [c] result)
include hanswers hcheapest hdecides

theorem result_search_of_decides (hcount : combinationCount [c :: others] ≤ q.settings.threshold) :
    (q.search [c :: others]).result p s = result := by
  have houtcome := outcome_run_search hanswers hcount ⟨s, {}⟩
  have hfirst : q.First answers [c :: others] [0] := first_of_cheapest hcheapest
  rcases hdecides with ⟨hsingle, rfl⟩ | ⟨f, hfails, rfl⟩
  · exact houtcome.unique_iff.2 ⟨[0], hfirst, rfl, hsingle⟩
  · exact houtcome.error_iff.2 ⟨[0], hfirst, hfails⟩

variable (hp : p.Steady)
include hp

theorem result_climb_of_decides {mode : Breadth} (hdue : q.Due mode 1)
    (hlevel : (q.levels mode).take 1 = [c :: others])
    (hcount : combinationCount [c :: others] ≤ q.settings.threshold) :
    (q.climb mode).result p s = result.map Finding.path? := by
  have hsearch := result_search_of_decides (s := s) hanswers hcheapest hdecides hcount
  have hlast : ¬q.Ambiguous p s mode 1 := by
    rw [Ambiguous, hlevel, hsearch]
    exact hdecides.ne_ambiguous
  rw [result_climb_of_first hp hdue hlast, hlevel, hsearch]

/-- **The first candidate of the target decides everything if it fits one element or none**, is no
dearer than the others, and the mode below keeps it alone. -/
theorem result_uniquePath_of_decides (hthreshold : 1 ≤ q.settings.threshold) (hdue : q.Due .all 1)
    (hall : (q.levels .all).take 1 = [c :: others]) (htwo : (q.levels .two).take 1 = [[c]]) :
    (q.uniquePath .all).result p s = result.map Finding.path? := by
  rw [uniquePath, Breadth.andNarrower, climbInTurn_cons]
  by_cases hcount : combinationCount [c :: others] ≤ q.settings.threshold
  · have hclimb := result_climb_of_decides (s := s) hanswers hcheapest hdecides hp hdue hall hcount
    rw [Attempt.result_orElse_idle hp _ fun hnone => absurd (hclimb ▸ hnone) hdecides.ne_none]
    exact hclimb
  · -- There is too much to search, so the next mode begins, and there the candidate stands alone.
    have htooMany : (q.search ((q.levels .all).take 1)).result p s = .ok .tooMany := by
      rw [hall, search, if_pos (Nat.lt_of_not_le hcount)]
      rfl
    have hlast : ¬q.Ambiguous p s .all 1 := by
      rw [Ambiguous, htooMany]
      exact fun h => by cases h
    have hgivenUp : (q.climb .all).result p s = .ok none := by
      rw [result_climb_of_first hp hdue hlast, htooMany]
      rfl
    have hone : combinationCount [[c]] ≤ q.settings.threshold := hthreshold
    have halone : ∀ d ∈ [c], Path.cost [c] ≤ Path.cost [d] := fun d hd =>
      List.mem_singleton.1 hd ▸ Cost.le_refl (Path.cost [c])
    have hclimb := result_climb_of_decides (s := s) hanswers halone hdecides hp
      ((q.due_iff .two .all 1).2 hdue) htwo hone
    rw [Attempt.result_orElse_of_none hp _ hgivenUp, climbInTurn_cons,
      Attempt.result_orElse_idle hp _ fun hnone => absurd (hclimb ▸ hnone) hdecides.ne_none]
    exact hclimb

end answers

end Quest

/-! ## 2. The level of the target -/

namespace Element

variable {e : Element} {s : Settings} {name : String}

/-- The widest mode has the id first, and the next one nothing else. -/
theorem build_of_id (hid : e.id? = some name) (haccepts : s.acceptsId name = true)
    (hname : Writable name) (index : Option Nat) :
    (∃ others, Level.build e index .all 0 s = (Feature.id name).candidate :: others) ∧
      Level.build e index .two 0 s = [(Feature.id name).candidate] := by
  obtain ⟨others, hfeatures⟩ := exists_features_of_id hid haccepts hname
  have hfound : e.candidates s = (Feature.id name).candidate :: others.map Feature.candidate := by
    rw [candidates_eq_map, hfeatures, List.map_cons]
  refine ⟨Level.build_of_candidates hfound .all, ?_⟩
  have hcounted : ∀ i, Level.counted [(Feature.id name).candidate] i = [] := fun i => by
    rw [Level.counted,
      List.filter_cons_of_neg (Candidate.not_dispensable_of_id (Feature.toList_candidate _))]
    rfl
  rw [Level.build, hfound, Level.ofCandidates, List.take_succ_cons, List.take_zero]
  cases index with
  | none => rfl
  | some i =>
    rw [Level.withCounted, hcounted]
    rfl

end Element

namespace Quest

variable {q : Quest} {e : Element} {name : String}

/-- No candidate of the target makes a cheaper path than its id. -/
theorem levels_of_id (htarget : q.document.element? q.target = some e)
    (hstop : q.stop ≠ some q.target) (hid : e.id? = some name)
    (haccepts : q.settings.acceptsId name = true) (hname : Writable name) :
    ∃ others, (q.levels .all).take 1 = [(Feature.id name).candidate :: others] ∧
      (q.levels .two).take 1 = [[(Feature.id name).candidate]] ∧
      ∀ d ∈ (Feature.id name).candidate :: others, Path.cost [(Feature.id name).candidate] ≤
        Path.cost [d] := by
  have helement : q.document.isElement q.target = true := Document.isElement_of_element? htarget
  have htake : ∀ mode, (q.levels mode).take 1 =
      [Level.build e (q.document.elementIndex q.target) mode 0 q.settings] := fun mode => by
    rw [List.take_one, List.head?_eq_getElem?,
      getElem?_levels_of_way helement (getElem?_way_zero hstop) htarget, Option.toList_some]
  obtain ⟨⟨others, hall⟩, htwo⟩ :=
    Element.build_of_id hid haccepts hname (q.document.elementIndex q.target)
  refine ⟨others, by rw [htake, hall], by rw [htake, htwo], fun d hd => ?_⟩
  have hcost := (Level.priced_of_mem_build (hall ▸ hd)).exists_cost
  refine Path.cost_le_of_candidate ⟨0, rfl⟩ hcost ?_
  obtain ⟨n, hn⟩ := hcost
  rw [hn]
  exact Cost.finite_le_finite.2 (Nat.zero_le n)

end Quest

/-! ## 3. The way up -/

namespace Document.WellFormed

variable {t : Document} (h : t.WellFormed)
include h

/-- Above the root there is nothing but the document element or what is above the scope. -/
theorem above_ground (s : Settings) {p : NodeId} (hp : t.parentElement (s.ground t).root = some p) :
    t.documentElement = some p ∨ t.parent (s.queryScope t) = some p := by
  rw [Settings.queryScope]
  rw [Settings.ground] at hp ⊢
  cases hroot : s.root with
  | none =>
    rw [hroot] at hp
    exact .inl (h.documentElement_of_defaultRoot hp)
  | some r =>
    rw [hroot] at hp
    dsimp only at hp ⊢
    split at hp
    · next hdefault =>
      rcases hdefault with rfl | rfl
      · have hparent := (parent_of_parentElement hp).1
        rw [h.top] at hparent
        cases hparent
      · exact .inl (h.documentElement_of_defaultRoot hp)
    · next hdefault =>
      rw [if_neg hdefault]
      exact .inr (parent_of_parentElement hp).1

/-- The way up begins at every element below the scope but the document element. -/
theorem stop_ne_target {s : Settings} {target : NodeId}
    (hbelow : t.isDescendantOf target (s.queryScope t) = true)
    (htop : t.documentElement ≠ some target) :
    (Quest.aim t s target).stop ≠ some (Quest.aim t s target).target := by
  intro hstop
  rcases h.above_ground s hstop with hdocument | hparent
  · exact htop hdocument
  · have habove : t.isDescendantOf (s.queryScope t) target = true := by
      apply h.isDescendantOf_iff.2
      exact ⟨0, by rw [ascend, hparent]; rfl⟩
    have hcycle := h.isDescendantOf_trans hbelow habove
    rw [h.isDescendantOf_irrefl] at hcycle
    cases hcycle

/-- Where only the document and elements have children, everything is below one of them. -/
theorem scope_of_parents (hparents : ∀ id p, t.parent id = some p → p = root ∨ t.isElement p = true)
    {id scope : NodeId} (hbelow : t.isDescendantOf id scope = true) :
    scope = root ∨ t.isElement scope = true := by
  obtain ⟨k, hk⟩ := h.isDescendantOf_iff.1 hbelow
  rw [ascend_succ] at hk
  obtain ⟨child, -, hchild⟩ := Option.bind_eq_some_iff.1 hk
  exact hparents child scope hchild

end Document.WellFormed

/-! ## 4. The query -/

namespace Document

variable {t : Document} {scope target : NodeId} {e : Element} {name : String}

theorem matches_id {y : NodeId} :
    Selectors.matches [⟨[.id name], []⟩] t y = true ↔
      ∃ d, t.element? y = some d ∧ d.id? = some name := by
  rw [Selectors.matches, List.any_cons, List.any_nil, Bool.or_false, Complex.matches, chainMatches,
    Bool.and_true, Compound.matches]
  cases t.element? y with
  | none =>
    refine iff_of_false Bool.false_ne_true ?_
    rintro ⟨d, hd, -⟩
    cases hd
  | some d => simp [Simple.matchesAt, Simple.matches]

/-- The query for an id that no other element below the scope has gives the target, where the scope
can be asked. -/
theorem queryAll_id (h : t.WellFormed) (hname : Writable name) (hnull : '\x00' ∉ name.toList)
    (htarget : t.element? target = some e) (hbelow : t.isDescendantOf target scope = true)
    (hid : e.id? = some name)
    (honly : ∀ y d, t.element? y = some d → t.isDescendantOf y scope = true → d.id? = some name →
      y = target) :
    t.queryAll (Feature.id name).candidate.fragment scope =
      if scope = root ∨ t.isElement scope = true then .ok [target]
        else .error (.invalidScope scope) := by
  have hparse : parse (Feature.id name).candidate.fragment = .ok [⟨[.id name], []⟩] := by
    rw [Feature.parse_candidate (f := .id name) hname, Element.simple_id hnull]
  split
  · next hscope =>
    rw [queryAll_of_parse hparse hscope]
    -- Among the nodes below the scope nothing but the target fits.
    have hfits : ∀ y ∈ t.descendants scope, Selectors.matches [⟨[.id name], []⟩] t y =
        (y == target) := by
      intro y hy
      rw [Bool.eq_iff_iff, matches_id, beq_iff_eq]
      constructor
      · rintro ⟨d, hd, hdid⟩
        exact honly y d hd ((mem_descendants h).1 hy) hdid
      · rintro rfl
        exact ⟨e, htarget, hid⟩
    rw [List.filter_congr hfits, List.filter_beq,
      List.count_eq_one_of_mem (h.nodup_descendants scope) ((mem_descendants h).2 hbelow)]
    rfl
  · next hscope =>
    rw [queryAll, prepare, hparse]
    dsimp only
    rw [if_neg hscope]
    rfl

end Document

/-! ## 5. The selector -/

namespace Quest

variable {q : Quest} {c : Candidate}

/-- A path of one candidate is written down as it is. -/
theorem settle_selector_of_singleton (h : q.document.settle (q.uniquePath .all) = .ok (some [c])) :
    q.document.settle q.selector = .ok c.fragment := by
  have hlength : [c].length ≤ 2 := Nat.le_succ 1
  have hshorten : q.document.settle (q.shorten [c]) = .ok {} := by
    rw [shorten_of_length_le_two q hlength, Document.settle_pure]
  obtain ⟨best, rest, hsorted, hbest⟩ := settle_bestVariant hshorten
  have hsingle : Path.sortByCost [[c]] = best :: rest := hsorted
  rw [Path.sortByCost, List.mergeSort_singleton] at hsingle
  cases hsingle
  rw [settle_selector_of_uniquePath h, hbest]
  rfl

end Quest

namespace Document

/-- **An id that no other element below the scope has is the whole selector**, whatever else the
target could be called by and whatever the limits are, if the scope is the document or an element.
This is so wherever only these have children; another scope is refused by every query. -/
theorem selectorFor_id {t : Document} (h : t.WellFormed)
    (hhtml : ∀ id d, t.documentElement = some id → t.element? id = some d →
      sameLetters d.tag "html" = true)
    {s : Settings} (hseed : s.seedMinLength ≤ 1) (hthreshold : 1 ≤ s.threshold) {target : NodeId}
    {e : Element} (htarget : t.element? target = some e) (hother : sameLetters e.tag "html" = false)
    (hbelow : t.isDescendantOf target (s.queryScope t) = true) {name : String}
    (hid : e.id? = some name) (haccepts : s.acceptsId name = true) (hempty : name ≠ "")
    (hhyphen : name ≠ "-") (hnull : '\x00' ∉ name.toList)
    (honly : ∀ y d, t.element? y = some d → t.isDescendantOf y (s.queryScope t) = true →
      d.id? = some name → y = target) :
    t.selectorFor s target =
        (if s.queryScope t = root ∨ t.isElement (s.queryScope t) = true then
        .ok ("#" ++ escapeName name) else .error (.query (.invalidScope (s.queryScope t)))) ∧
      ((∀ id p, t.parent id = some p → p = root ∨ t.isElement p = true) →
        t.selectorFor s target = .ok ("#" ++ escapeName name)) := by
  have hname : Writable name := ⟨hempty, hhyphen⟩
  have htop : t.documentElement ≠ some target := by
    intro hdocument
    rw [hhtml target e hdocument htarget] at hother
    cases hother
  have hstop := h.stop_ne_target hbelow htop
  have helement : t.isElement target = true := isElement_of_element? htarget
  obtain ⟨others, hall, htwo, hcheapest⟩ :=
    Quest.levels_of_id (q := Quest.aim t s target) htarget hstop hid haccepts hname
  have hquery := queryAll_id h hname hnull htarget hbelow hid honly
  have hdue : (Quest.aim t s target).Due .all 1 := by
    have hlength : 0 < ((Quest.aim t s target).levels .all).length := by
      rw [Quest.length_levels helement, List.length_pos_iff]
      exact Quest.way_ne_nil hstop
    exact ⟨Nat.one_pos, hlength, .inl hseed⟩
  -- Whatever the first query says is what the search comes to.
  have hpath : ∀ result,
      (Quest.aim t s target).Decides t.queryAll [(Feature.id name).candidate] result →
        t.settle ((Quest.aim t s target).uniquePath .all) = result.map Finding.path? :=
    fun result hdecides =>
      Quest.result_uniquePath_of_decides (fun _ _ _ => rfl) hcheapest hdecides
        (Provider.steady_ofDocument t) hthreshold hdue hall htwo
  have hfound : s.queryScope t = root ∨ t.isElement (s.queryScope t) = true →
      t.selectorFor s target = .ok ("#" ++ escapeName name) := by
    intro hscope
    rw [if_pos hscope] at hquery
    have hselector := Quest.settle_selector_of_singleton (q := Quest.aim t s target)
      (hpath (.ok (.unique _)) (.inl ⟨⟨target, hquery⟩, rfl⟩))
    rw [Element.candidate_id] at hselector
    rw [selectorFor_eq htarget hother hbelow]
    exact hselector
  refine ⟨?_, fun hparents => hfound (h.scope_of_parents hparents hbelow)⟩
  split
  · next hscope => exact hfound hscope
  · next hscope =>
    rw [if_neg hscope] at hquery
    rw [selectorFor_eq htarget hother hbelow]
    exact settle_bind_of_error (hpath (.error _) (.inr ⟨_, .inl ⟨_, hquery, rfl⟩, rfl⟩))

/-- Of two paragraphs with one class the first has an id. With a threshold of one its other
candidates are too many. -/
theorem selectorFor_id_paragraph :
    let t := Markup.parse "<p id=a class=x></p><p class=x></p>"
    let s : Settings := { threshold := 1 }
    let e : Element := { tag := "p", attrs := ⟨[⟨"id", "a"⟩, ⟨"class", "x"⟩]⟩ }
    (t.WellFormed ∧
      (∀ id d, t.documentElement = some id → t.element? id = some d →
        sameLetters d.tag "html" = true) ∧ s.seedMinLength ≤ 1 ∧ 1 ≤ s.threshold ∧
        t.element? 3 = some e ∧ sameLetters e.tag "html" = false ∧
      t.isDescendantOf 3 (s.queryScope t) = true ∧ e.id? = some "a" ∧ s.acceptsId "a" = true ∧
      ∀ y d, t.element? y = some d → t.isDescendantOf y (s.queryScope t) = true → d.id? = some "a" →
        y = 3) ∧
      t.selectorFor s 3 = .ok "#a" := by
  intro t s e
  have hwell : t.WellFormed := (Markup.sound_parse (by decide)).wellFormed
  have hhtml : ∀ id d, t.documentElement = some id → t.element? id = some d →
      sameLetters d.tag "html" = true := by
    have hdocument : t.documentElement = some 1 := by decide +kernel
    have helement : t.element? 1 = some { tag := "html" } := by decide +kernel
    intro id d hid hd
    rw [hdocument] at hid
    cases hid
    rw [helement] at hd
    cases hd
    decide
  have htarget : t.element? 3 = some e := by decide +kernel
  have hbelow : t.isDescendantOf 3 (s.queryScope t) = true := by decide +kernel
  have honly : ∀ y d, t.element? y = some d → t.isDescendantOf y (s.queryScope t) = true →
      d.id? = some "a" → y = 3 := by
    have hids : ∀ y < t.size, (t.element? y).bind Element.id? = some "a" → y = 3 := by
      decide +kernel
    intro y d hd _ hid
    exact hids y (lt_size_of_isElement (isElement_of_element? hd)) (by rw [hd]; exact hid)
  have hid : e.id? = some "a" := by decide
  have hselector :=
    (selectorFor_id hwell hhtml (s := s) (Nat.le_refl 1) (Nat.le_refl 1) htarget (by decide)
      hbelow hid rfl
    (by decide) (by decide) (by decide) honly).1
  have hscope : s.queryScope t = root ∨ t.isElement (s.queryScope t) = true := .inl rfl
  have hwritten : "#" ++ escapeName "a" = "#a" := by decide +kernel
  rw [if_pos hscope, hwritten] at hselector
  exact ⟨⟨hwell, hhtml, Nat.le_refl 1, Nat.le_refl 1, htarget, by decide, hbelow, hid, rfl, honly⟩,
    hselector⟩

/-- A paragraph with an id below a text. -/
def inscribed : Document :=
  ((empty.add root (.text "x")).1.add 1 (.element { tag := "p", attrs := ⟨[⟨"id", "a"⟩]⟩ })).1

/-- With the text chosen as the root every query is refused. -/
theorem selectorFor_inscribed :
    let s : Settings := { root := some 1, threshold := 1 }
    let e : Element := { tag := "p", attrs := ⟨[⟨"id", "a"⟩]⟩ }
    (inscribed.WellFormed ∧ inscribed.documentElement = none ∧ s.seedMinLength ≤ 1 ∧
      1 ≤ s.threshold ∧ inscribed.element? 2 = some e ∧ sameLetters e.tag "html" = false ∧
      s.queryScope inscribed = 1 ∧ inscribed.isDescendantOf 2 1 = true ∧ e.id? = some "a" ∧
      s.acceptsId "a" = true ∧
      ∀ y d, inscribed.element? y = some d → d.id? = some "a" → y = 2) ∧
      inscribed.selectorFor s 2 = .error (.query (.invalidScope 1)) ∧
      "#" ++ escapeName "a" = "#a" := by
  intro s e
  have hwell : inscribed.WellFormed := by
    have htext : (empty.add root (.text "x")).1.WellFormed :=
      wellFormed_empty.add (by decide) fun e he => by cases he
    refine htext.add (by decide) fun e he => ?_
    cases he
    decide
  have hids : ∀ y < inscribed.size, (inscribed.element? y).bind Element.id? = some "a" → y = 2 := by
    decide +kernel
  refine ⟨⟨hwell, by decide +kernel, Nat.le_refl 1, by decide, by decide +kernel, by decide,
    by decide +kernel, by decide +kernel, by decide, rfl, fun y d hd hid => ?_⟩,
    by decide +kernel, by decide +kernel⟩
  exact hids y (lt_size_of_isElement (isElement_of_element? hd)) (by rw [hd]; exact hid)

end Document

end UniqueSelector
