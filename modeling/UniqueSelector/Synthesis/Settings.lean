import UniqueSelector.Document.Basic

/-!
# Settings — what a selector may use, and how far to search for one

Names are admitted by predicates; searching is bounded by numbers.
-/

namespace UniqueSelector

/-- The choices of the caller. -/
structure Settings where
  /-- Where selectors are resolved; the body if nothing is chosen. -/
  root : Option NodeId := none
  acceptsId : String → Bool := fun _ => true
  acceptsClass : String → Bool := fun _ => true
  /-- Looks at tags in lower case. -/
  acceptsTag : String → Bool := fun _ => true
  /-- Looks at the name and the value of an attribute; by default none is admitted. -/
  acceptsAttribute : String → String → Bool := fun _ _ => false
  /-- How many levels are gathered before the first search. -/
  seedMinLength : Nat := 1
  /-- How long a path has to be so that it is not shortened any more. -/
  optimizedMinLength : Nat := 2
  /-- How many combinations are searched before a narrower mode is tried. -/
  threshold : Nat := 1000
  /-- How many attempts are made at shortening a path. -/
  maxTries : Nat := 10000

namespace Settings

/-- The settings in words; predicates have none. -/
def describe (s : Settings) : String :=
  let root := match s.root with
    | none => "None"
    | some id => "Some(" ++ NodeId.shown id ++ ")"
  "Config \x7b root: " ++ root ++ ", seed_min_length: " ++ toString s.seedMinLength ++
    ", optimized_min_length: " ++ toString s.optimizedMinLength ++ ", threshold: " ++
    toString s.threshold ++ ", max_number_of_tries: " ++ toString s.maxTries ++ ", .. \x7d"

end Settings

end UniqueSelector
