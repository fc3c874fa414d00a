import UniqueSelector.Synthesis.Combination
import UniqueSelector.Synthesis.Inquiry

/-!
# Search — the cheapest combination that fits one element only

All combinations of a stack of levels are tried, the cheap ones first. A stack with too many
combinations is not tried at all.
-/

namespace UniqueSelector

/-- One element in search of a selector. -/
structure Quest where
  document : Document
  settings : Settings
  target : NodeId
  /-- Queries find elements below this node. -/
  scope : NodeId
  /-- The way up ends below this node. -/
  stop : Option NodeId

/-- What comes out of searching one stack. -/
inductive Finding where
  | unique (path : Path)
  /-- Every combination fits several elements. -/
  | ambiguous
  /-- There are more combinations than the settings allow. -/
  | tooMany
deriving DecidableEq

namespace Quest

/-- Whether the path fits one element only; a path that fits none is a failure. -/
def isUnique (q : Quest) (path : Path) : Attempt Bool := do
  let selector := Path.render path
  match ← Attempt.all selector q.scope with
  | [] => throw (.noMatch selector)
  | [_] => return true
  | _ => return false

/-- Whether the path leads to the target. -/
def isSame (q : Quest) (path : Path) : Attempt Bool := do
  return (← Attempt.one (Path.render path) q.scope) == some q.target

/-- The first path that fits one element only. -/
def firstUnique (q : Quest) : List Path → Attempt (Option Path)
  | [] => return none
  | path :: paths => do
    if ← q.isUnique path then return some path else firstUnique q paths

/-- The cheapest combination that fits one element only. -/
def search (q : Quest) (stack : List Level) : Attempt Finding :=
  if combinationCount stack > q.settings.threshold then return .tooMany
  else do
    match ← q.firstUnique (Path.sortByCost (combinations stack)) with
    | some path => return .unique path
    | none => return .ambiguous

end Quest

end UniqueSelector
