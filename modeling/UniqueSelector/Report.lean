import UniqueSelector.Synthesis.Find

/-!
# Report — what became of each target

A selector that was found is queried again; only one that leads back to its element is verified.
Reports are printed as coloured lines or as JSON.
-/

namespace UniqueSelector

structure Report where
  node : NodeId
  /-- The tag of the target, empty if it is no element. -/
  tag : String
  selector : Except Failure String
  /-- Whether the selector leads back to the target. -/
  verified : Bool

/-! ## 1. Checking -/

/-- Whether `selector` leads to `target` below `scope`. -/
def Document.resolves (t : Document) (selector : String) (scope target : NodeId) : Bool :=
  match t.queryOne selector scope with
  | .ok found => found == some target
  | .error _ => false

namespace Report

/-- Looks for a selector and, if there is one, resolves it below `scope`. -/
def check (t : Document) (s : Settings) (scope target : NodeId) : Report :=
  let selector := t.selectorFor s target
  { node := target
    tag := ((t.element? target).map Element.tag).getD ""
    selector
    verified := match selector with
      | .ok selector => t.resolves selector scope target
      | .error _ => false }

/-- How many reports are not verified. -/
def failures (reports : List Report) : Nat := reports.countP fun r => !r.verified

/-! ## 2. Lines -/

def coloured (code : Nat) (s : String) : String :=
  "\x1b[" ++ toString code ++ "m" ++ s ++ "\x1b[39m"

def red : String → String := coloured 31

def green : String → String := coloured 32

def yellow : String → String := coloured 33

/-- `s` in a faint colour. -/
def dimmed (s : String) : String := "\x1b[2m" ++ s ++ "\x1b[0m"

/-- Blanks that fill up `width` characters beside `s`. -/
def padding (width : Nat) (s : String) : String :=
  String.ofList (List.replicate (width - s.length) ' ')

/-- The outcome as it stands at the end of a line. -/
def verdict (r : Report) : String :=
  match r.selector with
  | .ok selector =>
    if r.verified then green selector
    else yellow selector ++ " " ++ red "(does not resolve to this element)"
  | .error failure => red failure.message

/-- The line of a report: the node, its tag, and the outcome. -/
def line (r : Report) : String :=
  let node := toString r.node
  let label := "<" ++ r.tag ++ ">"
  padding 5 node ++ node ++ " " ++ dimmed (label ++ padding 12 label) ++ " " ++ r.verdict ++ "\n"

/-! ## 3. JSON -/

/-- A character between the quotes of a JSON text. -/
def jsonChar (c : Char) : List Char :=
  if c == '"' || c == '\\' then ['\\', c]
  else if c == '\x08' then ['\\', 'b']
  else if c == '\t' then ['\\', 't']
  else if c == '\n' then ['\\', 'n']
  else if c == '\x0c' then ['\\', 'f']
  else if c == '\r' then ['\\', 'r']
  else if c.toNat < 0x20 then
    '\\' :: 'u' :: '0' :: '0' ::
      (if c.toNat < 0x10 then '0' :: hexSmall c.toNat else hexSmall c.toNat)
  else [c]

def jsonText (s : String) : String := String.ofList ('"' :: s.toList.flatMap jsonChar ++ ['"'])

/-- The names and the written values of a report. -/
def fields (r : Report) : List (String × String) :=
  [("node", toString r.node), ("tag", jsonText r.tag),
    match r.selector with
    | .ok selector => ("selector", jsonText selector)
    | .error failure => ("error", jsonText failure.message),
    ("verified", toString r.verified)]

/-- A report as a member of a JSON list. -/
def json (r : Report) : String :=
  "  \x7b\n" ++ ",\n".intercalate (r.fields.map fun (name, value) =>
    "    " ++ jsonText name ++ ": " ++ value) ++
    "\n  \x7d"

def jsonList (reports : List Report) : String :=
  if reports.isEmpty then "[]" else "[\n" ++ ",\n".intercalate (reports.map json) ++ "\n]"

end Report

end UniqueSelector
