import UniqueSelector.Synthesis.Climb
import UniqueSelector.Synthesis.Shorten

/-!
# Find — a selector for one element

A unique path is looked for, shortened, and the cheapest variant is written down.
-/

namespace UniqueSelector

/-! ## 1. Roots -/

/-- Where the way up ends, and where queries begin. -/
structure Ground where
  root : NodeId
  scope : NodeId
deriving DecidableEq

/-- The body, or the document element, or the document. -/
def Document.defaultRoot (t : Document) : NodeId :=
  (t.body.or t.documentElement).getD Document.root

namespace Settings

/-- A chosen root narrows the queries, except for the document and the default root: there selectors
are resolved in the whole document, as they are without a choice. -/
def ground (s : Settings) (t : Document) : Ground :=
  match s.root with
  | none => ⟨t.defaultRoot, Document.root⟩
  | some root =>
    if root = Document.root ∨ root = t.defaultRoot then ⟨root, Document.root⟩ else ⟨root, root⟩

def queryScope (s : Settings) (t : Document) : NodeId := (s.ground t).scope

end Settings

/-! ## 2. Selectors -/

namespace Quest

/-- The search for `target` under the settings. -/
def aim (t : Document) (s : Settings) (target : NodeId) : Quest where
  document := t
  settings := s
  target := target
  scope := s.queryScope t
  stop := t.parentElement (s.ground t).root

/-- The selector of the cheapest variant of a unique path, the path itself among them and first
in a tie. -/
def bestVariant (q : Quest) (path : Path) : Attempt String := do
  let s ← q.shorten path
  Attempt.tell (.finished s.found.size s.attempts)
  -- The path stands first, and the order of equal costs is kept.
  match Path.sortByCost (path :: s.found.toList) with
  | best :: _ => return Path.render best
  | [] => throw .notFound

def selector (q : Quest) : Attempt String := do
  match ← q.uniquePath .all with
  | some path => q.bestVariant path
  | none => throw .notFound

end Quest

/-- A selector for `target`. The document element is always called by its name. -/
def findSelector (t : Document) (s : Settings) (target : NodeId) : Attempt String :=
  match t.element? target with
  | none => throw (.notAnElement target)
  | some e =>
    if sameLetters e.tag "html" then return "html"
    else
      let q := Quest.aim t s target
      if t.isDescendantOf target q.scope then q.selector
      else throw (.outsideRoot target q.scope)

/-- A selector for `target`, with the document answering the queries. -/
def Document.selectorFor (t : Document) (s : Settings) (target : NodeId) : Except Failure String :=
  (findSelector t s target).result (Provider.ofDocument t) ()

end UniqueSelector
