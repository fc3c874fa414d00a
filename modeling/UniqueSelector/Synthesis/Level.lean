import UniqueSelector.Synthesis.Path

/-!
# Level — the candidates for one element on the way up

How many candidates an element contributes depends on the breadth of the search.
-/

namespace UniqueSelector

/-- How much of each level is kept. -/
inductive Breadth where
  /-- Every candidate, and again each with its place among the siblings. -/
  | all
  /-- The first candidate, and again with its place. -/
  | two
  /-- The first candidate, with its place if that helps. -/
  | one
deriving DecidableEq

namespace Breadth

def name : Breadth → String
  | .all => "All"
  | .two => "Two"
  | .one => "One"

/-- The next mode that keeps less. -/
def narrower : Breadth → Option Breadth
  | .all => some .two
  | .two => some .one
  | .one => none

/-- The modes from this one to the narrowest. -/
def andNarrower : Breadth → List Breadth
  | .all => [.all, .two, .one]
  | .two => [.two, .one]
  | .one => [.one]

theorem andNarrower_eq (mode : Breadth) :
    mode.andNarrower = mode :: (mode.narrower.map andNarrower).getD [] := by
  cases mode <;> rfl

end Breadth

abbrev Level := List Candidate

namespace Level

/-- The candidates again, each with its place, as far as that helps. -/
def counted (level : Level) (index : Nat) : Level :=
  (level.filter Candidate.isDispensable).map fun c => c.nthChild index

/-- The candidates and, if there is a place among siblings, the counted ones behind them. -/
def withCounted (level : Level) : Option Nat → Level
  | none => level
  | some index => level ++ level.counted index

/-- The candidate with its place, if there is one and it helps. -/
def preferCounted (c : Candidate) : Option Nat → Candidate
  | none => c
  | some index => if c.isDispensable then c.nthChild index else c

/-- What a mode keeps of the candidates of an element with the place `index`. -/
def ofCandidates (found : Level) (index : Option Nat) : Breadth → Level
  | .all => withCounted found index
  | .two => withCounted (found.take 1) index
  | .one => (found.take 1).map fun c => preferCounted c index

/-- The level of an element that is `distance` above the target. -/
def build (e : Element) (index : Option Nat) (mode : Breadth) (distance : Nat) (s : Settings) :
    Level :=
  (ofCandidates (e.candidates s) index mode).map fun c => { c with level := distance }

end Level

end UniqueSelector
