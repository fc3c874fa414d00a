import UniqueSelector.Synthesis.Search

/-!
# Climb — from the target upward until a path is unique

Each element on the way up adds a level, and the stack is searched again. If there is too much to
search, or if the way ends, the climb begins anew in the next narrower mode.
-/

namespace UniqueSelector

namespace Quest

/-! ## 1. The way up -/

/-- The target and the elements above it, up to the stop. -/
def way (q : Quest) : List NodeId :=
  (q.target :: follow q.document.parentElement q.document.size q.target).takeWhile fun id =>
    some id != q.stop

/-- The levels of `ids`, as far as these are elements; the first of them stands at `distance`. -/
def levelsAlong (q : Quest) (mode : Breadth) : (distance : Nat) → (ids : List NodeId) → List Level
  | _, [] => []
  | distance, id :: ids =>
    match q.document.element? id with
    | none => []
    | some e =>
      Level.build e (q.document.elementIndex id) mode distance q.settings ::
        levelsAlong q mode (distance + 1) ids

/-- The levels along the way. They end at the first node that is no element. -/
def levels (q : Quest) (mode : Breadth) : List Level := q.levelsAlong mode 0 q.way

/-! ## 2. One mode -/

/-- Announces a path and returns it. -/
def announce (mode : Breadth) (path : Path) : Attempt (Option Path) := do
  Attempt.tell (.foundUnique mode (Path.render path))
  return some path

/-- Climbs on over `levels`, with `stack` below; `searched` tells whether the stack was searched as
it is. -/
def climbFrom (q : Quest) (mode : Breadth) :
    (levels stack : List Level) → (searched : Bool) → Attempt (Option Path)
  | [], stack, searched =>
    -- The way has ended. A stack below the seed length was not searched so far.
    if searched || stack.isEmpty then return none
    else do
      match ← q.search stack with
      | .unique path => announce mode path
      | _ => return none
  | level :: levels, below, _ =>
    let stack := below ++ [level]
    if stack.length < q.settings.seedMinLength then climbFrom q mode levels stack false
    else do
      match ← q.search stack with
      | .unique path => announce mode path
      | .tooMany =>
        -- More levels only multiply the combinations, so this mode is given up.
        Attempt.tell (.tooMany mode (combinationCount stack) stack.length q.settings.threshold)
        return none
      | .ambiguous => climbFrom q mode levels stack true

/-- The whole climb in one mode. -/
def climb (q : Quest) (mode : Breadth) : Attempt (Option Path) := do
  Attempt.tell (.walking mode q.target)
  q.climbFrom mode (q.levels mode) [] false

/-! ## 3. All modes -/

/-- The modes one after another until a path is found. -/
def climbInTurn (q : Quest) : List Breadth → Attempt (Option Path)
  | [] => return none
  | mode :: modes => do
    match ← q.climb mode with
    | some path => return some path
    | none => climbInTurn q modes

/-- A unique path, looked for in `mode` and then in the narrower modes. -/
def uniquePath (q : Quest) (mode : Breadth) : Attempt (Option Path) :=
  q.climbInTurn mode.andNarrower

end Quest

end UniqueSelector
