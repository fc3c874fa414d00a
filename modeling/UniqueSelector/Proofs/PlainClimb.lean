import UniqueSelector.Markup.Construction
import UniqueSelector.Proofs.Exhaustion
import UniqueSelector.Proofs.Stages

/-!
# Plain climb — the climb without its shortcuts

The plain climb searches every stack on the way and the last one once more. For a stack with too
many combinations it takes what the narrower modes find, and if they find nothing it goes on to the
next element. The climb takes two shortcuts: it gives a mode up at the first such stack, since no
later stack has fewer combinations, and it does not search the last stack twice. With a provider
that does not change its mind both come to the same result, except where the way has no element at
all: there the plain climb asks for the empty text.
-/

namespace UniqueSelector

/-- What the attempt finds, or else what the next one finds. -/
def Attempt.orElse (x next : Attempt (Option α)) : Attempt (Option α) := do
  match ← x with
  | some value => return some value
  | none => next

namespace Quest

/-! ## 1. The plain climb -/

/-- Searches a stack; if there is too much to search, it is left to the narrower modes. -/
def searchPlainly (q : Quest) (narrower : Attempt (Option Path)) (stack : List Level) :
    Attempt (Option Path) :=
  if combinationCount stack > q.settings.threshold then narrower
  else q.firstUnique (Path.sortByCost (combinations stack))

/-- Climbs on over `levels`, with `stack` below. -/
def climbPlainly (q : Quest) (narrower : Attempt (Option Path)) :
    (levels stack : List Level) → Attempt (Option Path)
  | [], stack => (q.searchPlainly narrower stack).orElse narrower
  | level :: levels, below =>
    let stack := below ++ [level]
    if stack.length < q.settings.seedMinLength then climbPlainly q narrower levels stack
    else (q.searchPlainly narrower stack).orElse (climbPlainly q narrower levels stack)

/-- The plain climb in the first mode, with the others as the narrower ones. -/
def plainInTurn (q : Quest) : List Breadth → Attempt (Option Path)
  | [] => return none
  | mode :: modes => q.climbPlainly (q.plainInTurn modes) (q.levels mode) []

def plainPath (q : Quest) (mode : Breadth) : Attempt (Option Path) := q.plainInTurn mode.andNarrower

end Quest

/-! ## 2. Searches on the way -/

namespace Attempt

variable {p : Provider σ} {s : σ} (hp : p.Steady) {x : Attempt (Option α)}
include hp

theorem result_orElse_congr {y next next' : Attempt (Option α)} (h : x.result p s = y.result p s)
    (hnext : next.result p s = next'.result p s) :
    (x.orElse next).result p s = (y.orElse next').result p s := by
  rw [orElse, orElse, result_bind hp, result_bind hp, h]
  congr
  funext found
  cases found with
  | some value => rfl
  | none => exact hnext

variable (next : Attempt (Option α))

theorem result_orElse_of_some {value : α} (h : x.result p s = .ok (some value)) :
    (x.orElse next).result p s = .ok (some value) :=
  result_bind_of_ok hp h

theorem result_orElse_of_none (h : x.result p s = .ok none) :
    (x.orElse next).result p s = next.result p s :=
  result_bind_of_ok hp h

theorem result_orElse_of_error {f : Failure} (h : x.result p s = .error f) :
    (x.orElse next).result p s = .error f :=
  result_bind_of_error hp h

/-- Before something that comes to nothing whenever the attempt does, the attempt is all
that counts. -/
theorem result_orElse_idle (h : x.result p s = .ok none → next.result p s = .ok none) :
    (x.orElse next).result p s = x.result p s := by
  cases hx : x.result p s with
  | error f => exact result_orElse_of_error hp next hx
  | ok found =>
    cases found with
    | some value => exact result_orElse_of_some hp next hx
    | none => rw [result_orElse_of_none hp next hx, h hx]

end Attempt

namespace Quest

open Attempt

/-- The stack may be searched, and no combination is unique. -/
structure InVain (q : Quest) (p : Provider σ) (s : σ) (stack : List Level) : Prop where
  count : combinationCount stack ≤ q.settings.threshold
  search : (q.firstUnique (Path.sortByCost (combinations stack))).result p s = .ok none

variable {q : Quest} {p : Provider σ} {s : σ} {narrower : Attempt (Option Path)}
  {levels stack : List Level}

theorem searchPlainly_of_lt (h : q.settings.threshold < combinationCount stack) :
    q.searchPlainly narrower stack = narrower :=
  if_pos h

theorem searchPlainly_of_le (h : combinationCount stack ≤ q.settings.threshold) :
    q.searchPlainly narrower stack = q.firstUnique (Path.sortByCost (combinations stack)) :=
  if_neg (Nat.not_lt.2 h)

theorem climbInTurn_cons (q : Quest) (mode : Breadth) (modes : List Breadth) :
    q.climbInTurn (mode :: modes) = (q.climb mode).orElse (q.climbInTurn modes) := by
  rw [climbInTurn, orElse]
  congr
  funext found
  cases found with
  | some path => rfl
  | none => rfl

section steady

variable (hp : p.Steady)
include hp

/-- A search with what is done about its finding, against a plain search with what comes next. -/
theorem result_search_orElse {settle : Finding → Attempt (Option Path)}
    {next : Attempt (Option Path)}
    (hunique : ∀ path, (settle (.unique path)).result p s = .ok (some path))
    (hambiguous : q.InVain p s stack →
      ((settle .ambiguous).orElse narrower).result p s = next.result p s)
    (htooMany : (settle .tooMany).result p s = .ok none)
    (hidle : q.settings.threshold < combinationCount stack → narrower.result p s = .ok none →
      next.result p s = .ok none) :
    ((q.search stack >>= settle).orElse narrower).result p s =
      ((q.searchPlainly narrower stack).orElse next).result p s := by
  rw [search]
  by_cases hcount : q.settings.threshold < combinationCount stack
  · rw [if_pos hcount, searchPlainly_of_lt hcount, result_orElse_idle hp next (hidle hcount)]
    exact result_orElse_of_none hp narrower ((result_bind_of_ok hp (result_pure _)).trans htooMany)
  · rw [if_neg hcount, searchPlainly_of_le (Nat.le_of_not_lt hcount), bind_assoc]
    cases hfirst : (q.firstUnique (Path.sortByCost (combinations stack))).result p s with
    | error f =>
      rw [result_orElse_of_error hp narrower (result_bind_of_error hp hfirst),
        result_orElse_of_error hp next hfirst]
    | ok found =>
      cases found with
      | some path =>
        have hsettle : (settle (.unique path)).result p s = .ok (some path) := hunique path
        rw [result_orElse_of_some hp next hfirst]
        exact result_orElse_of_some hp narrower ((result_bind_of_ok hp hfirst).trans hsettle)
      | none =>
        rw [result_orElse_of_none hp next hfirst, ← hambiguous ⟨Nat.le_of_not_lt hcount, hfirst⟩]
        exact result_orElse_congr hp (result_bind_of_ok hp hfirst) rfl

/-! ## 3. One mode -/

/-- Once there is too much to search, and the narrower modes find nothing, the plain climb goes on
in vain. -/
theorem result_climbPlainly_of_lt (hlevels : ∀ level ∈ stack ++ levels, level ≠ [])
    (hcount : q.settings.threshold < combinationCount stack)
    (hnone : narrower.result p s = .ok none) :
    (q.climbPlainly narrower levels stack).result p s = .ok none := by
  induction levels generalizing stack with
  | nil =>
    rw [climbPlainly, searchPlainly_of_lt hcount, result_orElse_of_none hp narrower hnone, hnone]
  | cons level levels ih =>
    have hnext : (stack ++ [level]) ++ levels = stack ++ level :: levels :=
      List.append_assoc stack [level] levels
    rw [← hnext] at hlevels
    -- The next stack has no fewer combinations.
    have hgrows : combinationCount stack ≤ combinationCount (stack ++ [level]) :=
      combinationCount_le_append fun other hother =>
        hlevels other (List.mem_append_left levels hother)
    have hrest := ih hlevels (Nat.lt_of_lt_of_le hcount hgrows)
    rw [climbPlainly]
    split
    · exact hrest
    · rw [searchPlainly_of_lt (Nat.lt_of_lt_of_le hcount hgrows), result_orElse_of_none hp _ hnone]
      exact hrest

/-- The climb in one mode, and then the narrower ones, come to the same as the plain climb. -/
theorem result_climbFrom_orElse (mode : Breadth) (narrower : Attempt (Option Path))
    (hlevels : ∀ level ∈ stack ++ levels, level ≠ []) (hne : stack ++ levels ≠ []) {searched : Bool}
    (hsearched : searched = true → q.InVain p s stack) :
    ((q.climbFrom mode levels stack searched).orElse narrower).result p s =
      (q.climbPlainly narrower levels stack).result p s := by
  have hannounce : ∀ path, (announce mode path).result p s = .ok (some path) := fun path =>
    result_tell_bind hp _ _
  induction levels generalizing stack searched with
  | nil =>
    rw [List.append_nil] at hne
    rw [climbFrom, climbPlainly]
    cases searched with
    | true =>
      -- The last stack was just searched, and searching it again changes nothing.
      have hvain := hsearched rfl
      rw [Bool.true_or, if_pos rfl, searchPlainly_of_le hvain.count,
        result_orElse_of_none hp narrower hvain.search]
      exact result_orElse_of_none hp narrower (result_pure none)
    | false =>
      rw [List.isEmpty_eq_false_iff.2 hne, Bool.or_false, if_neg (by decide)]
      apply result_search_orElse hp hannounce
      · exact fun _ => result_orElse_of_none hp narrower (result_pure none)
      · exact result_pure none
      · exact fun _ hnone => hnone
  | cons level levels ih =>
    have hnext : (stack ++ [level]) ++ levels = stack ++ level :: levels :=
      List.append_assoc stack [level] levels
    rw [← hnext] at hlevels hne
    rw [climbFrom, climbPlainly]
    split
    · exact ih hlevels hne fun hfalse => by cases hfalse
    · apply result_search_orElse hp hannounce
      · exact fun hvain => ih hlevels hne fun _ => hvain
      · exact result_tell_bind hp _ _
      · exact fun hcount hnone => result_climbPlainly_of_lt hp hlevels hcount hnone

/-! ## 4. All modes -/

theorem result_climbInTurn {modes : List Breadth} (h : ∀ mode ∈ modes, q.levels mode ≠ []) :
    (q.climbInTurn modes).result p s = (q.plainInTurn modes).result p s := by
  induction modes with
  | nil => rfl
  | cons mode modes ih =>
    obtain ⟨hmode, hmodes⟩ := List.forall_mem_cons.1 h
    have hlevels : ∀ level ∈ [] ++ q.levels mode, level ≠ [] :=
      fun level hlevel => levels_ne_nil hlevel
    have hplain : ((q.climbFrom mode (q.levels mode) [] false).orElse (q.plainInTurn modes)).result
        p s = (q.climbPlainly (q.plainInTurn modes) (q.levels mode) []).result p s :=
      result_climbFrom_orElse hp mode _ hlevels hmode fun hfalse => by cases hfalse
    rw [climbInTurn_cons, plainInTurn, ← hplain]
    exact result_orElse_congr hp (result_climb hp q s mode) (ih hmodes)

/-- Without an element on the way no mode asks anything. -/
theorem result_climbInTurn_of_nil {modes : List Breadth} (h : ∀ mode ∈ modes, q.levels mode = []) :
    (q.climbInTurn modes).result p s = .ok none := by
  induction modes with
  | nil => rfl
  | cons mode modes ih =>
    obtain ⟨hmode, hmodes⟩ := List.forall_mem_cons.1 h
    have hclimb : (q.climb mode).result p s = .ok none := by
      rw [result_climb hp, hmode]
      rfl
    rw [climbInTurn_cons, result_orElse_of_none hp _ hclimb]
    exact ih hmodes

end steady

/-- There are levels in one mode if there are in another. -/
theorem levels_eq_nil_iff (q : Quest) (mode mode' : Breadth) :
    q.levels mode = [] ↔ q.levels mode' = [] := by
  rw [← List.length_eq_zero_iff, ← List.length_eq_zero_iff, q.length_levels_eq mode mode']

/-- **The climb comes to the same result as the plain climb** if there is an element on the way; if
there is none, it finds nothing. -/
theorem result_uniquePath {p : Provider σ} (hp : p.Steady) (s : σ) (q : Quest) (mode : Breadth) :
    (q.uniquePath mode).result p s =
      if q.levels mode = [] then .ok none else (q.plainPath mode).result p s := by
  split
  · next hnil =>
      exact result_climbInTurn_of_nil hp fun mode' _ => (q.levels_eq_nil_iff mode mode').1 hnil
  · next hne => exact result_climbInTurn hp fun mode' _ => hne ∘ (q.levels_eq_nil_iff mode mode').2

end Quest

/-- The second of two items, with so small a threshold that only the narrowest mode
searches anything. -/
theorem Quest.result_uniquePath_item :
    let t := Markup.parse "<ul><li></li><li></li></ul>"
    let q := Quest.aim t { threshold := 1 } 5
    (Provider.ofDocument t).Steady ∧ (q.uniquePath .all).result (Provider.ofDocument t) () =
      if q.levels .all = [] then
        .ok none else (q.plainPath .all).result (Provider.ofDocument t) () :=
  ⟨Provider.steady_ofDocument _, result_uniquePath (Provider.steady_ofDocument _) () _ .all⟩

/-- An element above the body that is not called `html`: the way up from it has no element. -/
def Document.headless : Document :=
  ((empty.add root (.element { tag := "x" })).1.add 1 (.element { tag := "body" })).1

/-- The climb from there finds nothing, but the plain climb asks for the empty text and fails. -/
theorem Document.uniquePath_headless :
    let q := Quest.aim headless {} 1
    (Provider.ofDocument headless).Steady ∧
      (q.uniquePath .all).result (Provider.ofDocument headless) () = .ok none ∧
      (q.plainPath .all).result (Provider.ofDocument headless) () =
        .error (.query (.invalidSelector "" .empty)) ∧
      headless.selectorFor {} 1 = .error .notFound := by
  refine ⟨Provider.steady_ofDocument headless, ?_, ?_, ?_⟩
  · decide +kernel
  · decide +kernel
  · decide +kernel

end UniqueSelector
