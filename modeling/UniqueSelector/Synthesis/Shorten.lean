import UniqueSelector.Synthesis.Search

/-!
# Shorten — leaving out what a path does not need

The target and the outermost candidate stay. Each candidate between them is left out in turn; if the
rest still leads to the target alone, it is kept as a variant and shortened further.
-/

namespace UniqueSelector

/-- How far the shortening of a path has come. -/
structure Shortening where
  /-- How many candidates were left out for a try. -/
  attempts : Nat := 0
  /-- The selectors of the variants. -/
  visited : List String := []
  /-- The variants in the order in which they were found. -/
  found : Array Path := #[]

namespace Quest

/-- Whether the path leads to the target and to nothing else. -/
def accepts (q : Quest) (path : Path) : Attempt Bool := do
  if ← q.isUnique path then q.isSame path else return false

/-- Leaves out the candidate at `i`, then each of the `count - 1` behind it; `deeper` shortens a
variant further. A selector that was met before ends the row, and so does the last attempt. -/
def leaveOut (q : Quest) (deeper : Path → Shortening → Attempt Shortening) (path : Path) :
    (count i : Nat) → Shortening → Attempt Shortening
  | 0, _, s => return s
  | count + 1, i, s =>
    if q.settings.maxTries ≤ s.attempts then do
      Attempt.tell (.outOfTries s.attempts)
      return s
    else
      -- The attempt counts also if its selector turns out to be known.
      let s := { s with attempts := s.attempts + 1 }
      let shorter := path.eraseIdx i
      let selector := Path.render shorter
      if s.visited.contains selector then return s
      else do
        if ← q.accepts shorter then
          Attempt.tell (.shortened selector)
          let s ← deeper shorter
            { s with visited := selector :: s.visited, found := s.found.push shorter }
          leaveOut q deeper path count (i + 1) s
        else leaveOut q deeper path count (i + 1) s

/-- Shortens a path in at most `depth` generations of variants. -/
def shortenWithin (q : Quest) : (depth : Nat) → Path → Shortening → Attempt Shortening
  | 0, _, s => return s
  | depth + 1, path, s =>
    if path.length ≤ 2 || path.length ≤ q.settings.optimizedMinLength then return s
    -- The target at the front and the outermost candidate are never left out.
    else q.leaveOut (q.shortenWithin depth) path (path.length - 2) 1 s

/-- All variants of a path. Each generation is shorter by one, so the length bounds their number. -/
def shorten (q : Quest) (path : Path) : Attempt Shortening := q.shortenWithin path.length path {}

end Quest

end UniqueSelector
