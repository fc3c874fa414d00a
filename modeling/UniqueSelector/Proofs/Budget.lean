import UniqueSelector.Markup.Construction
import UniqueSelector.Proofs.Exhaustion
import UniqueSelector.Proofs.Tries

/-!
# Budget — how many queries a search asks

In each mode every stack on the way is searched once at most, and no more combinations are tried
than the threshold allows. Each attempt at shortening asks two queries at most, and the attempts are
counted. So the number of queries is known before the search begins, whoever answers them.
-/

namespace UniqueSelector

open Attempt

/-! ## 1. Queries that are left -/

namespace Progress

variable {r : Progress σ} {total m n : Nat}

/-- How many queries were asked so far. -/
def calls (r : Progress σ) : Nat := r.transcript.exchanges.size

/-- Of `total` queries at least `n` are left. -/
def Spare (total n : Nat) (r : Progress σ) : Prop := r.calls + n ≤ total

theorem Spare.mono (h : r.Spare total n) (hle : m ≤ n) : r.Spare total m :=
  Nat.le_trans (Nat.add_le_add_left hle _) h

theorem Spare.exchange (h : r.Spare total (n + 1)) (state : σ) (e : Exchange) :
    (r.exchange state e).Spare total n := by
  have hsize : (r.exchange state e).calls = r.calls + 1 := Array.size_push e
  rw [Spare] at h ⊢
  omega

/-- At the start all that will be needed is left. -/
theorem spare_self (r : Progress σ) (n : Nat) : r.Spare (r.calls + n) n := Nat.le_refl _

end Progress

open Progress

/-- From a progress with `n` queries left, the attempt ends with `left` of them left for
its value. -/
def Attempt.Spends (p : Provider σ) (total n : Nat) (x : Attempt α) (left : α → Nat) : Prop :=
  Ends p (Spare total n) x (fun value => Spare total (left value)) fun _ => Spare total 0

namespace Attempt

variable {p : Provider σ} {total m n : Nat} {x : Attempt α} {left : α → Nat}

theorem spends_pure {value : α} (h : left value ≤ n) : Spends p total n (pure value) left :=
  ends_pure fun _ hr => hr.mono h

theorem spends_throw (f : Failure) : Spends p total n (throw f) left :=
  ends_throw fun _ hr => hr.mono (Nat.zero_le n)

theorem spends_tell (event : TraceEvent) : Spends p total n (tell event) fun _ => n :=
  ends_tell fun _ hr => hr

theorem spends_all (selector : String) (scope : NodeId) :
    Spends p total (n + 1) (all selector scope) fun _ => n :=
  ends_all (fun _ hr _ state _ => hr.exchange state _) fun _ hr _ state _ =>
    (hr.exchange state _).mono (Nat.zero_le n)

theorem spends_one (selector : String) (scope : NodeId) :
    Spends p total (n + 1) (one selector scope) fun _ => n :=
  ends_one (fun _ hr _ state _ => hr.exchange state _) fun _ hr _ state _ =>
    (hr.exchange state _).mono (Nat.zero_le n)

theorem Spends.mono (h : Spends p total n x left) (hle : n ≤ m) : Spends p total m x left :=
  Ends.mono h (fun _ hr => hr.mono hle) fun _ _ hr => hr

theorem Spends.bind {next : α → Attempt β} {left' : β → Nat} (hx : Spends p total n x left)
    (hnext : ∀ value, Spends p total (left value) (next value) left') :
    Spends p total n (x >>= next) left' :=
  Ends.bind hx hnext

/-- What is spent in a run: no more than was asked for. -/
theorem Spends.calls_le (r : Progress σ) (h : Spends p (r.calls + n) n x fun _ => 0) :
    (Inquiry.run p x.run r).2.calls ≤ r.calls + n := by
  have hends := h r (r.spare_self n)
  exact hends.elim (fun _ hspare => hspare) fun _ hspare => hspare

end Attempt

/-! ## 2. The climb -/

/-- A stack that may be searched has no more combinations than the threshold says: the count is
exact up to it. -/
theorem length_combinations_le {stack : List Level} {threshold : Nat}
    (hthreshold : threshold < maxCount) (h : combinationCount stack ≤ threshold) :
    (combinations stack).length ≤ threshold := by
  rw [combinations_eq_choices]
  by_cases hempty : [] ∈ stack
  · rw [choices_eq_nil hempty]
    exact Nat.zero_le threshold
  · rw [combinationCount_eq fun level hlevel hnil => hempty (hnil ▸ hlevel)] at h
    rw [length_choices]
    omega

namespace Quest

variable {q : Quest} {p : Provider σ} {total n : Nat}

theorem spends_isUnique (path : Path) : Spends p total (n + 1) (q.isUnique path) fun _ => n := by
  apply (spends_all _ _).bind
  intro ids
  match ids with
  | [] => exact spends_throw _
  | [_] => exact spends_pure (Nat.le_refl n)
  | _ :: _ :: _ => exact spends_pure (Nat.le_refl n)

theorem spends_isSame (path : Path) : Spends p total (n + 1) (q.isSame path) fun _ => n :=
  (spends_one _ _).bind fun _ => spends_pure (Nat.le_refl n)

theorem spends_firstUnique (paths : List Path) :
    Spends p total (paths.length + n) (q.firstUnique paths) fun _ => n := by
  induction paths with
  | nil => exact spends_pure (by simp)
  | cons path paths ih =>
    rw [firstUnique, List.length_cons, Nat.add_right_comm]
    apply (spends_isUnique path).bind
    intro b
    split
    · exact spends_pure (Nat.le_add_left n _)
    · exact ih

/-- A stack with too many combinations is not searched at all. -/
theorem search_of_prod {stack : List Level} (hthreshold : q.settings.threshold < maxCount)
    (h : q.settings.threshold < (stack.map List.length).prod) : q.search stack = pure .tooMany := by
  have hlevels : ∀ level ∈ stack, level ≠ [] := by
    rintro level hlevel rfl
    rw [← length_choices, choices_eq_nil hlevel] at h
    exact absurd h (Nat.not_lt_zero _)
  apply if_pos
  rw [combinationCount_eq hlevels]
  exact Nat.lt_min.2 ⟨h, hthreshold⟩

theorem spends_announce (mode : Breadth) (path : Path) :
    Spends p total n (announce mode path) fun _ => n :=
  (spends_tell _).bind fun _ => spends_pure (Nat.le_refl n)

section threshold

variable (hthreshold : q.settings.threshold < maxCount)
include hthreshold

theorem spends_search (stack : List Level) :
    Spends p total (q.settings.threshold + n) (q.search stack) fun _ => n := by
  rw [search]
  split
  · exact spends_pure (Nat.le_add_left n _)
  · next hcount =>
    have hlength : (Path.sortByCost (combinations stack)).length ≤ q.settings.threshold := by
      rw [Path.sortByCost, List.length_mergeSort]
      exact length_combinations_le hthreshold (Nat.le_of_not_lt hcount)
    apply ((spends_firstUnique _).mono (Nat.add_le_add_right hlength n)).bind
    intro found
    split <;> exact spends_pure (Nat.le_refl n)

/-- With `m` searches left, one is spent for each element to come, and one on a stack that was not
searched yet. -/
theorem spends_climbFrom (mode : Breadth) {levels stack : List Level} {searched : Bool} {m : Nat}
    (hlevels : levels.length ≤ m) (hpending : searched = false → stack ≠ [] → levels.length < m) :
    Spends p total (m * q.settings.threshold + n) (q.climbFrom mode levels stack searched) fun _ =>
      n := by
  have hsearch : ∀ m stack, Spends p total ((m + 1) * q.settings.threshold + n) (q.search stack)
      fun _ => m * q.settings.threshold + n := by
    intro m stack
    rw [Nat.succ_mul, Nat.add_comm (m * q.settings.threshold), Nat.add_assoc]
    exact spends_search hthreshold stack
  have hidle : ∀ {m : Nat}, n ≤ m * q.settings.threshold + n := Nat.le_add_left n _
  induction levels generalizing stack searched m with
  | nil =>
    rw [climbFrom]
    split
    · exact spends_pure hidle
    · next hor =>
      rw [Bool.or_eq_true, not_or, Bool.not_eq_true, List.isEmpty_iff] at hor
      obtain ⟨m, rfl⟩ := Nat.exists_eq_add_of_le' (hpending hor.1 hor.2)
      apply (hsearch m stack).bind
      intro finding
      split
      · exact (spends_announce _ _).mono hidle
      · exact spends_pure hidle
  | cons level levels ih =>
    rw [climbFrom]
    split
    · -- The search that this stack goes without is made up for at the end of the way.
      exact ih (Nat.le_of_lt hlevels) fun _ _ => hlevels
    · obtain ⟨m, rfl⟩ :=
        Nat.exists_eq_add_of_le' (Nat.le_trans (Nat.le_add_left 1 levels.length) hlevels)
      apply (hsearch m (stack ++ [level])).bind
      intro finding
      split
      · exact (spends_announce _ _).mono hidle
      · exact (spends_tell _).bind fun _ => spends_pure hidle
      · exact ih (Nat.le_of_succ_le_succ hlevels) fun hfalse => by cases hfalse

theorem spends_climb (mode : Breadth) :
    Spends p total ((q.levels .all).length * q.settings.threshold + n) (q.climb mode) fun _ => n :=
  (spends_tell _).bind fun _ =>
    spends_climbFrom hthreshold mode (Nat.le_of_eq (q.levels_subset mode).length_eq)
      fun _ hne => absurd rfl hne

theorem spends_climbInTurn (modes : List Breadth) :
    Spends p total (modes.length * ((q.levels .all).length * q.settings.threshold) + n)
      (q.climbInTurn modes) fun _ => n := by
  induction modes with
  | nil => exact spends_pure (Nat.le_add_left n _)
  | cons mode modes ih =>
    rw [climbInTurn, List.length_cons, Nat.succ_mul, Nat.add_comm (modes.length * _), Nat.add_assoc]
    apply (spends_climb hthreshold mode).bind
    intro found
    split
    · exact spends_pure (Nat.le_add_left n _)
    · exact ih

end threshold

/-! ## 3. Shortening -/

theorem spends_accepts (path : Path) : Spends p total (n + 2) (q.accepts path) fun _ => n := by
  apply (spends_isUnique path).bind
  intro b
  split
  · exact spends_isSame path
  · exact spends_pure (Nat.le_succ n)

/-- How many queries the tries that are left may ask. -/
def queriesLeft (q : Quest) (s : Shortening) : Nat := 2 * (q.settings.maxTries - s.attempts)

/-- From the state on, the attempt spends two queries at most on each try. -/
def Frugal (q : Quest) (p : Provider σ) (s : Shortening) (x : Attempt Shortening) : Prop :=
  ∀ total n, Spends p total (q.queriesLeft s + n) x fun s' => q.queriesLeft s' + n

theorem frugal_pure (s : Shortening) : q.Frugal p s (pure s) :=
  fun _ _ => spends_pure (Nat.le_refl _)

theorem frugal_leaveOut {deeper : Path → Shortening → Attempt Shortening}
    (hdeeper : ∀ path s, q.Frugal p s (deeper path s)) (path : Path) (count i : Nat)
    (s : Shortening) :
    q.Frugal p s (q.leaveOut deeper path count i s) := by
  induction count generalizing i s with
  | zero => exact frugal_pure s
  | succ count ih =>
    intro total n
    rw [leaveOut]
    split
    · exact (spends_tell _).bind fun _ => frugal_pure s total n
    · -- The try that is made now leaves two queries less to the others.
      have hleft : q.queriesLeft s + n = q.queriesLeft s.tried + n + 2 := by
        unfold queriesLeft Shortening.tried
        dsimp only
        omega
      dsimp only
      rw [hleft]
      split
      · exact spends_pure (Nat.le_add_right _ 2)
      · apply (spends_accepts _).bind
        intro b
        split
        · apply (spends_tell _).bind
          intro _
          have hbelow := hdeeper (path.eraseIdx i) (s.tried.kept (path.eraseIdx i)) total n
          exact hbelow.bind fun s' => ih (i + 1) s' total n
        · exact ih (i + 1) s.tried total n

theorem frugal_shortenWithin (depth : Nat) (path : Path) (s : Shortening) :
    q.Frugal p s (q.shortenWithin depth path s) := by
  induction depth generalizing path s with
  | zero => exact frugal_pure s
  | succ depth ih =>
    rw [shortenWithin]
    split
    · exact frugal_pure s
    · exact frugal_leaveOut (fun path s => ih path s) path _ _ s

theorem spends_bestVariant (path : Path) :
    Spends p total (2 * q.settings.maxTries + n) (q.bestVariant path) fun _ => n := by
  have hshorten : Spends p total (2 * q.settings.maxTries + n) (q.shorten path) fun s =>
    q.queriesLeft s + n :=
    frugal_shortenWithin path.length path {} total n
  apply hshorten.bind
  intro s
  apply (spends_tell _).bind
  intro _
  split
  · exact spends_pure (Nat.le_add_left n _)
  · exact spends_throw _

end Quest

/-! ## 4. A whole search -/

open Quest

/-- Nothing is asked, or a path is looked for in vain, or one is found and shortened. -/
theorem run_findSelector (t : Document) (s : Settings) (target : NodeId) (p : Provider σ)
    (r : Progress σ) :
    let q := aim t s target
    let climbed := Inquiry.run p (q.uniquePath .all).run r
    let found := Inquiry.run p (findSelector t s target).run r
    found.2 = r ∨ found.2 = climbed.2 ∨
      ∃ path, climbed.1 = .ok (some path) ∧
      found = Inquiry.run p (q.bestVariant path).run climbed.2 := by
  intro q climbed found
  rw [show found = Inquiry.run p (findSelector t s target).run r from rfl, findSelector]
  split
  · exact .inl rfl
  · split
    · exact .inl rfl
    · dsimp only
      split
      · right
        rw [selector, run_bind]
        cases hclimbed : Inquiry.run p ((aim t s target).uniquePath .all).run r with
        | mk result r' =>
          rw [show climbed = (result, r') from hclimbed]
          cases result with
          | error f => exact .inl rfl
          | ok value =>
            cases value with
            | none => exact .inl rfl
            | some path => exact .inr ⟨path, rfl, rfl⟩
      · exact .inl rfl

/-- **A search asks no more than its settings allow**, whoever answers. The three climbs together
ask one query at most for each of their stacks and each combination that may be tried, and none for
a stack with more combinations. The shortening asks two queries at most for each try, and makes no
more tries than it may: no watcher can tell otherwise. Nothing else is asked. -/
theorem findSelector_calls {s : Settings} (hthreshold : s.threshold < maxCount) (t : Document)
    (target : NodeId) (p : Provider σ) (state : σ) :
    let q := aim t s target
    let climbed := Inquiry.run p (q.uniquePath .all).run ⟨state, {}⟩
    let found := Inquiry.run p (findSelector t s target).run ⟨state, {}⟩
    climbed.2.calls ≤ 3 * (q.levels .all).length * s.threshold ∧
    (∀ stack : List Level, s.threshold < (stack.map List.length).prod →
      q.search stack = pure .tooMany) ∧
    (∀ path r, (Inquiry.run p (q.bestVariant path).run r).2.calls ≤ r.calls + 2 * s.maxTries) ∧
    (∀ watch path, (∀ x : Shortening, x.attempts ≤ s.maxTries → watch x = pure ()) →
      q.shortenWatched watch path = q.shorten path) ∧
    (found.2.calls = 0 ∨ found.2 = climbed.2 ∨
      ∃ path, climbed.1 = .ok (some path) ∧
      found = Inquiry.run p (q.bestVariant path).run climbed.2) := by
  intro q climbed found
  refine ⟨?_, fun stack h => search_of_prod hthreshold h, fun path r => ?_,
    fun watch path h => shortenWatched_eq (q := q) h path, ?_⟩
  · have hspends : Spends p (0 + 3 * ((q.levels .all).length * s.threshold))
        (3 * ((q.levels .all).length * s.threshold)) (q.uniquePath .all) fun _ => 0 :=
      spends_climbInTurn (n := 0) hthreshold (Breadth.andNarrower .all)
    rw [Nat.mul_assoc, ← Nat.zero_add (3 * _)]
    exact hspends.calls_le ⟨state, {}⟩
  · exact (spends_bestVariant (n := 0) path).calls_le r
  · exact (run_findSelector t s target p ⟨state, {}⟩).imp_left fun h => congrArg calls h

/-- The second of two items: three levels, so nine queries at most for the climb, of which the first
is enough. -/
theorem findSelector_calls_item :
    let t := Markup.parse "<ul><li></li><li></li></ul>"
    let s : Settings := { threshold := 1 }
    let climbed := Inquiry.run (Provider.ofDocument t) ((aim t s 5).uniquePath .all).run ⟨(), {}⟩
    s.threshold < maxCount ∧ ((aim t s 5).levels .all).length = 3 ∧ climbed.2.calls = 1 ∧
      climbed.2.calls ≤ 3 * ((aim t s 5).levels .all).length * s.threshold := by
  intro t s climbed
  have hthreshold : s.threshold < maxCount := by decide
  refine ⟨hthreshold, ?_, ?_, (findSelector_calls hthreshold t 5 (Provider.ofDocument t) ()).1⟩
  · decide +kernel
  · decide +kernel

end UniqueSelector
