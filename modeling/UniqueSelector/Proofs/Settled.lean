import UniqueSelector.Proofs.Choices
import UniqueSelector.Proofs.Soundness
import UniqueSelector.Proofs.Stages

/-!
# Settled — what a search comes to when the document answers

A document gives the same answer whenever it is asked, so an attempt comes to the same end wherever
it begins. Whether a search finds anything is then a question about the answers alone: it finds
nothing exactly if each path that it tries fits several elements.
-/

namespace UniqueSelector

/-! ## 1. Attempts with a document -/

/-- What an attempt comes to when the document answers. -/
def Document.settle (t : Document) (x : Attempt α) : Except Failure α :=
  x.result (Provider.ofDocument t) ()

namespace Document

variable {t : Document} {x : Attempt α} {next : α → Attempt β}

@[simp] theorem settle_pure (value : α) : t.settle (pure value) = .ok value := rfl

@[simp] theorem settle_tell (event : TraceEvent) : t.settle (Attempt.tell event) = .ok () := rfl

@[simp] theorem settle_all (selector : String) (scope : NodeId) :
    t.settle (Attempt.all selector scope) = (t.queryAll selector scope).mapError .query := rfl

@[simp] theorem settle_one (selector : String) (scope : NodeId) :
    t.settle (Attempt.one selector scope) = (t.queryOne selector scope).mapError .query := rfl

theorem settle_bind (t : Document) (x : Attempt α) (next : α → Attempt β) :
    t.settle (x >>= next) = t.settle x >>= fun value => t.settle (next value) :=
  Attempt.result_bind (Provider.steady_ofDocument t) () x next

theorem settle_bind_of_ok {value : α} (h : t.settle x = .ok value) :
    t.settle (x >>= next) = t.settle (next value) :=
  Attempt.result_bind_of_ok (Provider.steady_ofDocument t) h

theorem settle_bind_of_error {f : Failure} (h : t.settle x = .error f) :
    t.settle (x >>= next) = .error f :=
  Attempt.result_bind_of_error (Provider.steady_ofDocument t) h

theorem settle_tell_bind (event : TraceEvent) (next : Unit → Attempt β) :
    t.settle (Attempt.tell event >>= next) = t.settle (next ()) :=
  settle_bind_of_ok (settle_tell event)

theorem settle_bind_eq_ok {b : β} :
    t.settle (x >>= next) = .ok b ↔ ∃ value, t.settle x = .ok value ∧
      t.settle (next value) = .ok b := by
  cases h : t.settle x with
  | ok value =>
    rw [settle_bind_of_ok h]
    constructor
    · exact fun hb => ⟨value, rfl, hb⟩
    · rintro ⟨_, ⟨⟩, hb⟩
      exact hb
  | error f =>
    rw [settle_bind_of_error h]
    constructor
    · exact fun hb => by cases hb
    · rintro ⟨_, ⟨⟩, _⟩

/-- The attempt does not fail for want of a selector. -/
def Finds (t : Document) (x : Attempt α) : Prop := t.settle x ≠ .error .notFound

theorem finds_of_ok {value : α} (h : t.settle x = .ok value) : t.Finds x := by
  rw [Finds, h]
  exact fun h => by cases h

theorem finds_pure (value : α) : t.Finds (pure value : Attempt α) := finds_of_ok (settle_pure value)

theorem finds_of_mapError {answer : Answer α} (h : t.settle x = answer.mapError .query) :
    t.Finds x := by
  rw [Finds, h]
  cases answer <;> exact fun h => by cases h

theorem Finds.bind (hx : t.Finds x) (hnext : ∀ value, t.Finds (next value)) :
    t.Finds (x >>= next) := by
  cases h : t.settle x with
  | ok value =>
    rw [Finds, settle_bind_of_ok h]
    exact hnext value
  | error f =>
    rw [Finds, h] at hx
    rw [Finds, settle_bind_of_error h]
    exact fun hf => hx (by injection hf with hf; rw [hf])

end Document

/-! ## 2. One path after another -/

namespace Quest

open Document

/-- The document finds several elements. -/
def Shared (q : Quest) (path : Path) : Prop :=
  ∃ x y ids, q.document.queryAll path.render q.scope = .ok (x :: y :: ids)

variable {q : Quest}

instance (path : Path) : Decidable (q.Shared path) :=
  match h : q.document.queryAll path.render q.scope with
  | .ok (x :: y :: ids) => .isTrue ⟨x, y, ids, h⟩
  | .ok [] | .ok [_] | .error _ => .isFalse fun ⟨_, _, _, hids⟩ => by
    rw [hids] at h
    cases h

/-- What its answers say of a path. -/
def judge (path : Path) : List NodeId → Except Failure Bool
  | [] => .error (.noMatch path.render)
  | [_] => .ok true
  | _ :: _ :: _ => .ok false

theorem settle_isUnique (q : Quest) (path : Path) :
    q.document.settle (q.isUnique path) =
      (q.document.queryAll path.render q.scope).mapError .query >>= judge path := by
  rw [isUnique, settle_bind, settle_all]
  cases q.document.queryAll path.render q.scope with
  | error e => rfl
  | ok ids =>
    match ids with
    | [] => rfl
    | [_] => rfl
    | _ :: _ :: _ => rfl

theorem settle_isUnique_true {path : Path} :
    q.document.settle (q.isUnique path) = .ok true ↔ q.Lone path := by
  rw [settle_isUnique, Lone]
  cases q.document.queryAll path.render q.scope with
  | error e => exact iff_of_false (fun h => by cases h) fun ⟨_, h⟩ => by cases h
  | ok ids =>
    match ids with
    | [] => exact iff_of_false (fun h => by cases h) fun ⟨_, h⟩ => by cases h
    | [x] => exact iff_of_true rfl ⟨x, rfl⟩
    | _ :: _ :: _ => exact iff_of_false (fun h => by cases h) fun ⟨_, h⟩ => by cases h

theorem settle_isUnique_false {path : Path} :
    q.document.settle (q.isUnique path) = .ok false ↔ q.Shared path := by
  rw [settle_isUnique, Shared]
  cases q.document.queryAll path.render q.scope with
  | error e => exact iff_of_false (fun h => by cases h) fun ⟨_, _, _, h⟩ => by cases h
  | ok ids =>
    match ids with
    | [] => exact iff_of_false (fun h => by cases h) fun ⟨_, _, _, h⟩ => by cases h
    | [_] => exact iff_of_false (fun h => by cases h) fun ⟨_, _, _, h⟩ => by cases h
    | x :: y :: ids => exact iff_of_true rfl ⟨x, y, ids, rfl⟩

/-- No path of the row is unique, and none of them fails. -/
theorem settle_firstUnique_none {paths : List Path} :
    q.document.settle (q.firstUnique paths) = .ok none ↔ ∀ path ∈ paths, q.Shared path := by
  induction paths with
  | nil => simp [firstUnique]
  | cons path paths ih =>
    rw [firstUnique, settle_bind_eq_ok, List.forall_mem_cons, ← ih, ← settle_isUnique_false]
    constructor
    · rintro ⟨b, hb, hrest⟩
      cases b with
      | true => cases hrest
      | false => exact ⟨hb, hrest⟩
    · rintro ⟨hb, hrest⟩
      exact ⟨false, hb, hrest⟩

theorem settle_firstUnique_of_answered {paths : List Path}
    (h : ∀ path ∈ paths, q.Lone path ∨ q.Shared path) :
    ∃ found, q.document.settle (q.firstUnique paths) = .ok found := by
  induction paths with
  | nil => exact ⟨none, rfl⟩
  | cons path paths ih =>
    rw [firstUnique]
    rcases h path (.head _) with hlone | hshared
    · exact ⟨some path, settle_bind_of_ok (settle_isUnique_true.2 hlone)⟩
    · obtain ⟨found, hfound⟩ := ih fun path hpath => h path (.tail _ hpath)
      exact ⟨found, (settle_bind_of_ok (settle_isUnique_false.2 hshared)).trans hfound⟩

/-! ## 3. One stack after another -/

theorem settle_search_of_tooMany {stack : List Level}
    (h : q.settings.threshold < combinationCount stack) :
    q.document.settle (q.search stack) = .ok .tooMany := by
  rw [search, if_pos h, settle_pure]

/-- The paths that are tried are the choices from the stack. -/
theorem mem_sortByCost_combinations {stack : List Level} {path : Path} :
    path ∈ Path.sortByCost (combinations stack) ↔ path ∈ choices stack := by
  rw [Path.sortByCost, List.mem_mergeSort, combinations_eq_choices]

section search

variable {stack : List Level} (hcount : combinationCount stack ≤ q.settings.threshold)
include hcount

theorem settle_search :
    q.document.settle (q.search stack) =
      (q.document.settle (q.firstUnique (Path.sortByCost (combinations stack)))).map fun found =>
        match found with
        | some path => .unique path
        | none => .ambiguous := by
  rw [search, if_neg (Nat.not_lt.2 hcount), settle_bind]
  cases q.document.settle (q.firstUnique (Path.sortByCost (combinations stack))) with
  | error f => rfl
  | ok found => cases found <;> rfl

theorem settle_search_ambiguous :
    q.document.settle (q.search stack) = .ok .ambiguous ↔
      ∀ path ∈ choices stack, q.Shared path := by
  have hfirst : q.document.settle (q.firstUnique (Path.sortByCost (combinations stack))) =
      .ok none ↔
      ∀ path ∈ Path.sortByCost (combinations stack), q.Shared path := settle_firstUnique_none
  simp only [mem_sortByCost_combinations] at hfirst
  rw [settle_search hcount, ← hfirst]
  cases q.document.settle (q.firstUnique (Path.sortByCost (combinations stack))) with
  | error f => simp [Except.map]
  | ok found => cases found <;> simp [Except.map]

theorem settle_search_ne_tooMany : q.document.settle (q.search stack) ≠ .ok .tooMany := by
  rw [settle_search hcount]
  cases q.document.settle (q.firstUnique (Path.sortByCost (combinations stack))) with
  | error f => simp [Except.map]
  | ok found => cases found <;> simp [Except.map]

end search

theorem settle_search_of_answered {stack : List Level}
    (h : ∀ path ∈ choices stack, q.Lone path ∨ q.Shared path) :
    ∃ finding, q.document.settle (q.search stack) = .ok finding := by
  by_cases hcount : combinationCount stack ≤ q.settings.threshold
  · have hanswered : ∀ path ∈ Path.sortByCost (combinations stack), q.Lone path ∨
        q.Shared path := fun path hpath =>
      h path (mem_sortByCost_combinations.1 hpath)
    obtain ⟨found, hfound⟩ := settle_firstUnique_of_answered hanswered
    rw [settle_search hcount, hfound]
    exact ⟨_, rfl⟩
  · exact ⟨.tooMany, settle_search_of_tooMany (Nat.lt_of_not_le hcount)⟩

/-! ## 4. Climbs -/

section climb

variable {mode : Breadth}

/-- What a climb comes to, if it comes to a search that is not ambiguous. -/
theorem settle_climb_cases (q : Quest) (mode : Breadth) :
    ((∀ n, q.Due mode n → q.document.settle (q.search ((q.levels mode).take n)) = .ok .ambiguous) ∧
      q.document.settle (q.climb mode) = .ok none) ∨
    ∃ n, q.Due mode n ∧ q.document.settle (q.search ((q.levels mode).take n)) ≠ .ok .ambiguous ∧
      q.document.settle (q.climb mode) =
        (q.document.settle (q.search ((q.levels mode).take n))).map Finding.path? := by
  rcases result_climb_cases (Provider.steady_ofDocument q.document) q () mode
    with hall | ⟨n, hn, hlast, hclimb⟩
  · exact .inl hall
  · exact .inr ⟨n, hn.1, hlast, hclimb⟩

/-- A stack that is searched has a level. -/
theorem Due.take_ne_nil {n : Nat} (h : q.Due mode n) : (q.levels mode).take n ≠ [] := by
  obtain ⟨hpos, hle, -⟩ := h
  rw [← List.length_pos_iff, List.length_take, Nat.min_eq_left hle]
  exact hpos

/-- A climb finds nothing if no stack on the way is searched with success. -/
theorem settle_climb_of_fruitless (h : ∀ n, (q.levels mode).take n ≠ [] →
      q.settings.threshold < combinationCount ((q.levels mode).take n) ∨
        ∀ path ∈ choices ((q.levels mode).take n), q.Shared path) :
    q.document.settle (q.climb mode) = .ok none := by
  rcases q.settle_climb_cases mode with ⟨-, hclimb⟩ | ⟨n, hdue, hlast, hclimb⟩
  · exact hclimb
  · -- The search is not ambiguous, so there was too much to search.
    have htooMany : q.settings.threshold < combinationCount ((q.levels mode).take n) := by
      by_contra hcount
      have hcount := Nat.le_of_not_lt hcount
      exact hlast ((settle_search_ambiguous hcount).2
        ((h n hdue.take_ne_nil).resolve_left (Nat.not_lt.2 hcount)))
    rw [hclimb, settle_search_of_tooMany htooMany]
    rfl

/-- If a climb finds nothing although nothing was too much to search, then the last stack was
searched in vain. -/
theorem shared_of_settle_climb_none (hne : q.levels mode ≠ [])
    (hcount : ∀ n, combinationCount ((q.levels mode).take n) ≤ q.settings.threshold)
    (h : q.document.settle (q.climb mode) = .ok none) :
    ∀ path ∈ choices (q.levels mode), q.Shared path := by
  rcases q.settle_climb_cases mode with ⟨hall, -⟩ | ⟨n, -, hlast, hclimb⟩
  · have hambiguous :=
      hall (q.levels mode).length ⟨List.length_pos_of_ne_nil hne, Nat.le_refl _, .inr rfl⟩
    have hshared := (settle_search_ambiguous (hcount _)).1 hambiguous
    rwa [List.take_length] at hshared
  · rw [hclimb] at h
    cases hsearch : q.document.settle (q.search ((q.levels mode).take n)) with
    | error f =>
      rw [hsearch] at h
      cases h
    | ok finding =>
      rw [hsearch] at h
      cases finding with
      | unique path => cases h
      | ambiguous => exact absurd hsearch hlast
      | tooMany => exact absurd hsearch (settle_search_ne_tooMany (hcount n))

/-- A climb comes to an end if each path that it may try fits something. -/
theorem settle_climb_of_answered (h : ∀ n, (q.levels mode).take n ≠ [] →
      ∀ path ∈ choices ((q.levels mode).take n), q.Lone path ∨ q.Shared path) :
    ∃ found, q.document.settle (q.climb mode) = .ok found := by
  rcases q.settle_climb_cases mode with ⟨-, hclimb⟩ | ⟨n, hdue, -, hclimb⟩
  · exact ⟨none, hclimb⟩
  · obtain ⟨finding, hfinding⟩ := settle_search_of_answered (h n hdue.take_ne_nil)
    exact ⟨finding.path?, by rw [hclimb, hfinding]; rfl⟩

end climb

/-! ## 5. All modes -/

theorem settle_climbInTurn_none {modes : List Breadth} :
    q.document.settle (q.climbInTurn modes) = .ok none ↔
      ∀ mode ∈ modes, q.document.settle (q.climb mode) = .ok none := by
  induction modes with
  | nil => simp [climbInTurn]
  | cons mode modes ih =>
    rw [climbInTurn, settle_bind_eq_ok, List.forall_mem_cons, ← ih]
    constructor
    · rintro ⟨found, hfound, hrest⟩
      cases found with
      | some path => cases hrest
      | none => exact ⟨hfound, hrest⟩
    · rintro ⟨hfound, hrest⟩
      exact ⟨none, hfound, hrest⟩

theorem settle_climbInTurn_of_answered {modes : List Breadth}
    (h : ∀ mode ∈ modes, ∃ found, q.document.settle (q.climb mode) = .ok found) :
    ∃ found, q.document.settle (q.climbInTurn modes) = .ok found := by
  induction modes with
  | nil => exact ⟨none, rfl⟩
  | cons mode modes ih =>
    obtain ⟨found, hfound⟩ := h mode (.head _)
    rw [climbInTurn, settle_bind_of_ok hfound]
    cases found with
    | some path => exact ⟨some path, rfl⟩
    | none => exact ih fun mode hmode => h mode (.tail _ hmode)

theorem settle_uniquePath_none :
    q.document.settle (q.uniquePath .all) = .ok none ↔
      ∀ mode, q.document.settle (q.climb mode) = .ok none := by
  rw [uniquePath, settle_climbInTurn_none]
  constructor
  · intro h mode
    cases mode with
    | all => exact h .all (by decide)
    | two => exact h .two (by decide)
    | one => exact h .one (by decide)
  · exact fun h mode _ => h mode

/-- A path that is found is one of those that were tried, and it fits one element only. -/
theorem mem_choices_of_settle_uniquePath {path : Path}
    (h : q.document.settle (q.uniquePath .all) = .ok (some path)) :
    q.Lone path ∧ ∃ mode n, (q.levels mode).take n ≠ [] ∧
      path ∈ choices ((q.levels mode).take n) := by
  have hlevels : ∀ mode n path, (q.levels mode).take n ≠ [] →
      path ∈ combinations ((q.levels mode).take n) →
      ∃ mode n, (q.levels mode).take n ≠ [] ∧ path ∈ choices ((q.levels mode).take n) :=
    fun mode n path hne hpath => ⟨mode, n, hne, combinations_eq_choices _ ▸ hpath⟩
  have hends := q.behaves_ofDocument.climbInTurn (fun _ _ => trivial) hlevels
    (Breadth.andNarrower .all) ⟨(), {}⟩ trivial
  change Attempt.Ended _ _ (q.document.settle (q.uniquePath .all)) _ at hends
  rw [h] at hends
  exact (hends.2 path rfl).symm

/-! ## 6. Searches that find nothing -/

theorem finds_isUnique (path : Path) : q.document.Finds (q.isUnique path) := by
  apply (finds_of_mapError (settle_all _ _)).bind
  intro ids
  match ids with
  | [] => exact fun h => by cases h
  | [_] => exact finds_pure true
  | _ :: _ :: _ => exact finds_pure false

theorem finds_accepts (path : Path) : q.document.Finds (q.accepts path) := by
  apply (finds_isUnique path).bind
  intro b
  split
  · exact (finds_of_mapError (settle_one _ _)).bind fun id => finds_pure _
  · exact finds_pure false

theorem finds_leaveOut {deeper : Path → Shortening → Attempt Shortening}
    (hdeeper : ∀ path s, q.document.Finds (deeper path s)) (path : Path) (count i : Nat)
    (s : Shortening) :
    q.document.Finds (q.leaveOut deeper path count i s) := by
  induction count generalizing i s with
  | zero => exact finds_pure s
  | succ count ih =>
    rw [leaveOut]
    split
    · exact (finds_of_ok (settle_tell _)).bind fun _ => finds_pure s
    · dsimp only
      split
      · exact finds_pure _
      · apply (finds_accepts _).bind
        intro b
        split
        · exact (finds_of_ok (settle_tell _)).bind fun _ => (hdeeper _ _).bind fun s => ih _ s
        · exact ih _ _

theorem finds_shortenWithin (depth : Nat) (path : Path) (s : Shortening) :
    q.document.Finds (q.shortenWithin depth path s) := by
  induction depth generalizing path s with
  | zero => exact finds_pure s
  | succ depth ih =>
    rw [shortenWithin]
    split
    · exact finds_pure s
    · exact finds_leaveOut (fun path s => ih path s) path _ _ s

/-- The cheapest of several paths is one of them. -/
theorem exists_sortByCost_cons (path : Path) (paths : List Path) :
    ∃ best rest, Path.sortByCost (path :: paths) = best :: rest := by
  cases h : Path.sortByCost (path :: paths) with
  | nil =>
    have hmem : path ∈ Path.sortByCost (path :: paths) := List.mem_mergeSort.2 (.head _)
    rw [h] at hmem
    cases hmem
  | cons best rest => exact ⟨best, rest, rfl⟩

theorem finds_bestVariant (path : Path) : q.document.Finds (q.bestVariant path) := by
  apply (finds_shortenWithin path.length path {}).bind
  intro s
  apply (finds_of_ok (settle_tell _)).bind
  intro _
  obtain ⟨best, rest, hsorted⟩ := exists_sortByCost_cons path s.found.toList
  rw [hsorted]
  exact finds_pure _

theorem finds_firstUnique (paths : List Path) : q.document.Finds (q.firstUnique paths) := by
  induction paths with
  | nil => exact finds_pure none
  | cons path paths ih =>
    apply (finds_isUnique path).bind
    intro b
    split
    · exact finds_pure _
    · exact ih

theorem finds_search (stack : List Level) : q.document.Finds (q.search stack) := by
  rw [search]
  split
  · exact finds_pure _
  · apply (finds_firstUnique _).bind
    intro found
    split <;> exact finds_pure _

theorem finds_climb (mode : Breadth) : q.document.Finds (q.climb mode) := by
  rcases q.settle_climb_cases mode with ⟨-, hclimb⟩ | ⟨n, -, -, hclimb⟩
  · exact finds_of_ok hclimb
  · have hsearch := finds_search (q := q) ((q.levels mode).take n)
    rw [Finds] at hsearch ⊢
    rw [hclimb]
    cases hfinding : q.document.settle (q.search ((q.levels mode).take n)) with
    | error f =>
      rw [hfinding] at hsearch
      exact fun h => hsearch (by injection h with h; rw [h])
    | ok finding => exact fun h => by cases h

theorem finds_climbInTurn (modes : List Breadth) : q.document.Finds (q.climbInTurn modes) := by
  induction modes with
  | nil => exact finds_pure none
  | cons mode modes ih =>
    apply (finds_climb mode).bind
    intro found
    split
    · exact finds_pure _
    · exact ih

/-- A search gives up only when no mode has found a path. -/
theorem settle_selector_notFound :
    q.document.settle q.selector = .error .notFound ↔
      q.document.settle (q.uniquePath .all) = .ok none := by
  have hpath : q.document.Finds (q.uniquePath .all) := finds_climbInTurn _
  rw [selector]
  cases h : q.document.settle (q.uniquePath .all) with
  | error f =>
    rw [Finds, h] at hpath
    rw [settle_bind_of_error h]
    exact iff_of_false (fun hf => hpath (by injection hf with hf; rw [hf])) fun h => by cases h
  | ok found =>
    rw [settle_bind_of_ok h]
    cases found with
    | none => exact iff_of_true rfl rfl
    | some path => exact iff_of_false (finds_bestVariant path) (fun h => by cases h)

end Quest

/-! ## 7. Selectors that are found -/

namespace Quest

open Document

variable {q : Quest} {path : Path}

theorem settle_selector_of_uniquePath
    (h : q.document.settle (q.uniquePath .all) = .ok (some path)) :
    q.document.settle q.selector = q.document.settle (q.bestVariant path) := by
  rw [selector, settle_bind_of_ok h]

/-- The selector is that of the first path in the order of costs. -/
theorem settle_bestVariant {s : Shortening} (h : q.document.settle (q.shorten path) = .ok s) :
    ∃ best rest, Path.sortByCost (path :: s.found.toList) = best :: rest ∧
      q.document.settle (q.bestVariant path) = .ok best.render := by
  obtain ⟨best, rest, hsorted⟩ := exists_sortByCost_cons path s.found.toList
  refine ⟨best, rest, hsorted, ?_⟩
  rw [bestVariant, settle_bind_of_ok h, settle_tell_bind, hsorted]
  exact settle_pure best.render

/-- There is nothing to leave out between two candidates. -/
theorem shorten_of_length_le_two (q : Quest) (h : path.length ≤ 2) : q.shorten path = pure {} := by
  rw [shorten]
  cases hlength : path.length with
  | zero => rfl
  | succ depth =>
    rw [shortenWithin, if_pos]
    rw [decide_eq_true h, Bool.true_or]

end Quest

/-- What is below the scope is searched for, except for the document element. -/
theorem Document.selectorFor_eq {t : Document} {s : Settings} {target : NodeId} {e : Element}
    (htarget : t.element? target = some e) (hhtml : sameLetters e.tag "html" = false)
    (hbelow : t.isDescendantOf target (s.queryScope t) = true) :
    t.selectorFor s target = t.settle (Quest.aim t s target).selector := by
  have hfind : findSelector t s target = (Quest.aim t s target).selector := by
    rw [findSelector, htarget]
    dsimp only
    rw [hhtml, if_neg (by decide)]
    exact if_pos hbelow
  rw [selectorFor, hfind]
  rfl

/-- **An element gets no selector exactly if no mode finds a path for it.** -/
theorem Document.selectorFor_notFound {t : Document} {s : Settings} {target : NodeId} {e : Element}
    (htarget : t.element? target = some e) (hhtml : sameLetters e.tag "html" = false)
    (hbelow : t.isDescendantOf target (s.queryScope t) = true) :
    t.selectorFor s target = .error .notFound ↔
      t.settle ((Quest.aim t s target).uniquePath .all) = .ok none := by
  rw [selectorFor_eq htarget hhtml hbelow]
  exact Quest.settle_selector_notFound (q := Quest.aim t s target)

end UniqueSelector
