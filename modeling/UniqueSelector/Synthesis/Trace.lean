import UniqueSelector.Synthesis.Level
import UniqueSelector.Text.Quoted

/-!
# Trace — what a search tells about itself

A trace never changes what a search finds; it shows which modes were tried and why they were left.
-/

namespace UniqueSelector

/-- A step of a search that is worth a line. -/
inductive TraceEvent where
  /-- A mode begins at the target. -/
  | walking (mode : Breadth) (target : NodeId)
  /-- A mode has found a selector. -/
  | foundUnique (mode : Breadth) (selector : String)
  /-- A mode is left because there is too much to try. -/
  | tooMany (mode : Breadth) (combinations levels threshold : Nat)
  /-- No attempts at shortening are left. -/
  | outOfTries (attempts : Nat)
  /-- A shorter selector was accepted. -/
  | shortened (selector : String)
  /-- The search is over. -/
  | finished (variants attempts : Nat)
deriving DecidableEq

def TraceEvent.line : TraceEvent → String
  | .walking mode target => "[FINDER] " ++ mode.name ++ ": walking up from " ++ NodeId.shown target
  | .foundUnique mode selector => "[FINDER] " ++ mode.name ++ ": unique path " ++ quoted selector
  | .tooMany mode combinations levels threshold =>
    "[FINDER] " ++ mode.name ++ ": " ++ toString combinations ++ " combinations over " ++
      toString levels ++ " levels exceeds threshold " ++ toString threshold
  | .outOfTries attempts => "[FINDER] optimizer stopped after " ++ toString attempts ++ " attempts"
  | .shortened selector => "[FINDER] optimized to " ++ quoted selector
  | .finished variants attempts =>
    "[FINDER] " ++ toString variants ++ " optimized variants after " ++ toString attempts ++
      " attempts"

end UniqueSelector
