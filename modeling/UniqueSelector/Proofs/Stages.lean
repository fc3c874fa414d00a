import UniqueSelector.Proofs.Steady

/-!
# Stages — the stacks that a climb searches

A climb searches the stack of its first levels, again with each level that it gathers from the seed
length on; if there are fewer levels, it searches the whole stack. It goes on as long as a search is
ambiguous, so it comes to what the first other search comes to.
-/

namespace UniqueSelector

/-- The path that was found, if any. -/
def Finding.path? : Finding → Option Path
  | .unique path => some path
  | .ambiguous | .tooMany => none

namespace Quest

/-- The stack of the first `n` levels is one of those that a climb searches if nothing ends it
before: it has the seed length, or there are no more levels. -/
def Due (q : Quest) (mode : Breadth) (n : Nat) : Prop :=
  0 < n ∧ n ≤ (q.levels mode).length ∧ (q.settings.seedMinLength ≤ n ∨ n = (q.levels mode).length)

/-- The search of the first `n` levels is ambiguous. -/
def Ambiguous (q : Quest) (p : Provider σ) (s : σ) (mode : Breadth) (n : Nat) : Prop :=
  (q.search ((q.levels mode).take n)).result p s = .ok .ambiguous

/-- The climb comes to search the first `n` levels: whatever it searched before was ambiguous. -/
def Reaches (q : Quest) (p : Provider σ) (s : σ) (mode : Breadth) (n : Nat) : Prop :=
  q.Due mode n ∧ ∀ m < n, q.Due mode m → q.Ambiguous p s mode m

variable {q : Quest} {p : Provider σ} {s : σ} {mode : Breadth} {levels stack : List Level}

/-- If each search that the climb comes to is ambiguous, then it comes to all of them. -/
theorem ambiguous_of_reaches (h : ∀ n, q.Reaches p s mode n → q.Ambiguous p s mode n) (n : Nat)
    (hn : q.Due mode n) :
    q.Ambiguous p s mode n := by
  induction n using Nat.strongRecOn with
  | _ n ih => exact h n ⟨hn, fun m hm hdue => ih m hm hdue⟩

/-- The next level makes the stack one higher. -/
theorem next_stack {all : List Level} {level : Level} (hstack : stack ++ level :: levels = all) :
    (stack ++ [level]) ++ levels = all ∧ (stack ++ [level]).length = stack.length + 1 ∧
      stack.length + 1 ≤ all.length ∧ all.take (stack.length + 1) = stack ++ [level] := by
  have hnext : (stack ++ [level]) ++ levels = all := by rw [List.append_assoc]; exact hstack
  have hlength : (stack ++ [level]).length = stack.length + 1 := List.length_append
  refine ⟨hnext, hlength, ?_, ?_⟩
  · rw [← hnext, List.length_append, hlength]
    exact Nat.le_add_right _ _
  · rw [← hnext, ← hlength, List.take_left]

section climbFrom

variable (hp : p.Steady)
include hp

theorem result_announce (mode : Breadth) (path : Path) :
    (announce mode path).result p s = .ok (some path) :=
  Attempt.result_tell_bind hp _ _

/-- What a search decides is what the climb comes to. -/
theorem result_search_bind (mode : Breadth) {settle : Finding → Attempt (Option Path)}
    (hunique : ∀ path, settle (.unique path) = announce mode path)
    (htooMany : (settle .tooMany).result p s = .ok none)
    (hlast : (q.search stack).result p s ≠ .ok .ambiguous) :
    (q.search stack >>= settle).result p s = ((q.search stack).result p s).map Finding.path? := by
  cases hsearch : (q.search stack).result p s with
  | error f => exact Attempt.result_bind_of_error hp hsearch
  | ok finding =>
    rw [Attempt.result_bind_of_ok hp hsearch]
    cases finding with
    | unique path =>
      rw [hunique]
      exact result_announce hp mode path
    | ambiguous => exact absurd hsearch hlast
    | tooMany => exact htooMany

variable (hstack : stack ++ levels = q.levels mode) {searched : Bool}
  (hsearched : searched = true ↔ 0 < stack.length ∧ q.settings.seedMinLength ≤ stack.length)
include hstack hsearched

/-- A climb ends with the first search that is not ambiguous. -/
theorem result_climbFrom_of_last {n : Nat} (hn : q.Reaches p s mode n)
    (hlast : ¬q.Ambiguous p s mode n) (hcoming : stack.length < n ∨ n < q.settings.seedMinLength) :
    (q.climbFrom mode levels stack searched).result p s =
      ((q.search ((q.levels mode).take n)).result p s).map Finding.path? := by
  -- A stack is still to come if it is higher, or if it has less than the seed length and is
  -- searched at the end.
  obtain ⟨⟨hpos, hle, hdue⟩, hbefore⟩ := hn
  induction levels generalizing stack searched with
  | nil =>
    rw [List.append_nil] at hstack
    have hn : n = stack.length := by
      rw [← hstack] at hle hdue
      omega
    have hopen : ¬(searched || stack.isEmpty) = true := by
      rw [Bool.or_eq_true, hsearched, List.isEmpty_iff, ← List.length_eq_zero_iff]
      omega
    have htake : (q.levels mode).take n = stack := by rw [hn, ← hstack, List.take_length]
    rw [Ambiguous, htake] at hlast
    rw [climbFrom, if_neg hopen, htake]
    exact result_search_bind hp mode (fun _ => rfl) rfl hlast
  | cons level levels ih =>
    obtain ⟨hnext, hlength, hheight, htake⟩ := next_stack hstack
    rw [climbFrom, hlength]
    split
    · next hseed =>
      apply ih hnext
      · rw [hlength]
        exact iff_of_false (by decide) (by omega)
      · rw [hlength]
        omega
    · next hseed =>
      by_cases hn : n = stack.length + 1
      · subst hn
        rw [Ambiguous, htake] at hlast
        rw [htake]
        exact result_search_bind hp mode (fun _ => rfl) (Attempt.result_tell_bind hp _ _) hlast
      · have hambiguous : q.Ambiguous p s mode (stack.length + 1) :=
          hbefore _ (by omega) ⟨Nat.succ_pos _, hheight, .inl (Nat.le_of_not_lt hseed)⟩
        rw [Ambiguous, htake] at hambiguous
        rw [Attempt.result_bind_of_ok hp hambiguous]
        apply ih hnext
        · rw [hlength]
          exact iff_of_true rfl (by omega)
        · rw [hlength]
          omega

/-- If no search decides anything, the climb comes to nothing. -/
theorem result_climbFrom_of_ambiguous (h : ∀ n, q.Due mode n → q.Ambiguous p s mode n) :
    (q.climbFrom mode levels stack searched).result p s = .ok none := by
  induction levels generalizing stack searched with
  | nil =>
    rw [List.append_nil] at hstack
    rw [climbFrom]
    split
    · rfl
    · next hopen =>
      rw [Bool.or_eq_true, not_or, List.isEmpty_iff, ← List.length_eq_zero_iff] at hopen
      have hheight : stack.length = (q.levels mode).length := congrArg List.length hstack
      have hambiguous := h stack.length ⟨by omega, Nat.le_of_eq hheight, .inr hheight⟩
      rw [Ambiguous, ← hstack, List.take_length] at hambiguous
      exact Attempt.result_bind_of_ok hp hambiguous
  | cons level levels ih =>
    obtain ⟨hnext, hlength, hheight, htake⟩ := next_stack hstack
    rw [climbFrom, hlength]
    split
    · next hseed =>
      apply ih hnext
      rw [hlength]
      exact iff_of_false (by decide) (by omega)
    · next hseed =>
      have hambiguous :=
        h (stack.length + 1) ⟨Nat.succ_pos _, hheight, .inl (Nat.le_of_not_lt hseed)⟩
      rw [Ambiguous, htake] at hambiguous
      rw [Attempt.result_bind_of_ok hp hambiguous]
      apply ih hnext
      rw [hlength]
      exact iff_of_true rfl (by omega)

end climbFrom

theorem result_climb (hp : p.Steady) (q : Quest) (s : σ) (mode : Breadth) :
    (q.climb mode).result p s = (q.climbFrom mode (q.levels mode) [] false).result p s :=
  Attempt.result_tell_bind hp _ _

/-- **A climb comes to what the first search comes to that is not ambiguous**, and to nothing if
all are. -/
theorem result_climb_cases (hp : p.Steady) (q : Quest) (s : σ) (mode : Breadth) :
    ((∀ n, q.Due mode n → q.Ambiguous p s mode n) ∧ (q.climb mode).result p s = .ok none) ∨
    ∃ n, q.Reaches p s mode n ∧ ¬q.Ambiguous p s mode n ∧
      (q.climb mode).result p s = ((q.search ((q.levels mode).take n)).result p s).map
        Finding.path? := by
  have hsearched : false = true ↔ 0 < ([] : List Level).length ∧
      q.settings.seedMinLength ≤ ([] : List Level).length :=
    iff_of_false (by decide) fun h => Nat.lt_irrefl 0 h.1
  rw [result_climb hp]
  by_cases h : ∃ n, q.Reaches p s mode n ∧ ¬q.Ambiguous p s mode n
  · obtain ⟨n, hn, hlast⟩ := h
    exact .inr ⟨n, hn, hlast,
      result_climbFrom_of_last hp (List.nil_append _) hsearched hn hlast (.inl hn.1.1)⟩
  · have hall : ∀ n, q.Due mode n → q.Ambiguous p s mode n :=
      ambiguous_of_reaches fun n hn => Classical.byContradiction fun hlast => h ⟨n, hn, hlast⟩
    exact .inl ⟨hall, result_climbFrom_of_ambiguous hp (List.nil_append _) hsearched hall⟩

/-- If the search of the first level is due and decides, then the climb comes to what it decides. -/
theorem result_climb_of_first (hp : p.Steady) (hdue : q.Due mode 1)
    (hlast : ¬q.Ambiguous p s mode 1) :
    (q.climb mode).result p s = ((q.search ((q.levels mode).take 1)).result p s).map
      Finding.path? := by
  rcases result_climb_cases hp q s mode with ⟨hall, -⟩ | ⟨n, ⟨⟨hpos, -⟩, hbefore⟩, -, hclimb⟩
  · exact absurd (hall 1 hdue) hlast
  · rcases Nat.eq_or_lt_of_le hpos with rfl | hlt
    · exact hclimb
    · exact absurd (hbefore 1 hlt hdue) hlast

end Quest

end UniqueSelector
