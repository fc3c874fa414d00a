import UniqueSelector.Synthesis.Candidate

/-!
# Path — candidates from the target outward

A path names the target and some of the elements above it, each by one candidate, the nearest first.
It stands for a selector: neighbours on adjacent levels are parent and child, others are only apart.
-/

namespace UniqueSelector

/-- Candidates, the target's first. -/
abbrev Path := List Candidate

namespace Path

/-- What stands between a candidate and the next one outward. -/
def joint (nearer farther : Candidate) : String :=
  if nearer.level + 1 = farther.level then " > " else " "

/-- The text so far, written out from `nearer`, with the rest of the path in front of it. -/
def renderFrom (text : String) (nearer : Candidate) : Path → String
  | [] => text
  | farther :: path => renderFrom (farther.fragment ++ joint nearer farther ++ text) farther path

def render : Path → String
  | [] => ""
  | target :: path => renderFrom target.fragment target path

/-- The cost of all candidates together. -/
def cost (path : Path) : Cost := Cost.sum (path.map Candidate.cost)

/-- The cheaper paths first; paths of one cost keep their order. -/
def sortByCost (paths : List Path) : List Path := paths.mergeSort fun a b => cost a ≤ cost b

end Path

end UniqueSelector
