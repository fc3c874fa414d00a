import UniqueSelector.CommandLine.Arguments
import UniqueSelector.CommandLine.Help
import UniqueSelector.Document.Outline
import UniqueSelector.Markup.Construction
import UniqueSelector.Report
import UniqueSelector.Warning

/-!
# Session — one run of the program

A run reads a document, chooses a root and targets, and reports on each target. Files are read
through a function, so that a run is determined by its arguments and that function.
-/

namespace UniqueSelector.CommandLine

structure Output where
  code : UInt32
  out : String := ""
  err : String := ""
deriving DecidableEq

abbrev FileReader := String → Except String ByteArray

/-! ## 1. Complaints -/

/-- Why a run ends without reports. -/
inductive Complaint where
  | noInput
  | unreadable (path reason : String)
  | noRoot (selector : String)
  | query (error : QueryError)
deriving DecidableEq

namespace Complaint

def message : Complaint → String
  | .noInput => "no input: pass a FILE or --html"
  | .unreadable path _ => "reading " ++ path
  | .noRoot selector => "--root " ++ quoted selector ++ " matched no element"
  | .query error => error.message

def cause : Complaint → Option String
  | .unreadable _ reason => some reason
  | .query (.invalidSelector _ fault) => some fault.message
  | _ => none

/-- The complaint with its cause as it is printed. -/
def text (c : Complaint) : String :=
  "Error: " ++ c.message ++ "\n" ++
    match c.cause with
    | none => ""
    | some cause => "\nCaused by:\n    " ++ cause ++ "\n"

end Complaint

namespace Arguments

/-! ## 2. Choices -/

/-- The text of the document; one that is given directly comes before a file. -/
def load (a : Arguments) (read : FileReader) : Except Complaint String :=
  match a.html, a.file with
  | some html, _ => .ok html
  | none, none => .error .noInput
  | none, some path =>
    match read path with
    | .error reason => .error (.unreadable path reason)
    | .ok bytes =>
      match String.fromUTF8? bytes with
      | some html => .ok html
      | none => .error (.unreadable path "stream did not contain valid UTF-8")

/-- The first element that fits the selector for the root, if there is such a selector. -/
def chooseRoot (a : Arguments) (t : Document) : Except Complaint (Option NodeId) :=
  match a.root with
  | none => .ok none
  | some selector =>
    match t.queryOne selector Document.root with
    | .error error => .error (.query error)
    | .ok none => .error (.noRoot selector)
    | .ok (some root) => .ok (some root)

/-- The node below which targets lie. -/
def targetScope (t : Document) (root : Option NodeId) : NodeId :=
  (root.or t.body).getD Document.root

/-- The elements that fit the selector for targets, or all elements. -/
def chooseTargets (a : Arguments) (t : Document) (root : Option NodeId) :
    Except Complaint (List NodeId) :=
  match a.select with
  | none => .ok (t.elementsBelow (targetScope t root))
  | some selector => (t.queryAll selector (targetScope t root)).mapError .query

/-- The settings that the choices make. -/
def settings (a : Arguments) (root : Option NodeId) : Settings where
  root := root
  acceptsId name := !a.skipIds.contains name
  acceptsClass name := !a.skipClasses.contains name
  acceptsTag name := !a.skipTags.any fun skipped => sameLetters skipped name
  acceptsAttribute name _ := a.attrs.contains name
  seedMinLength := a.seedMinLength.getD ({} : Settings).seedMinLength
  optimizedMinLength := a.optimizedMinLength.getD ({} : Settings).optimizedMinLength
  threshold := a.threshold.getD ({} : Settings).threshold
  maxTries := a.maxTries.getD ({} : Settings).maxTries

/-! ## 3. Runs -/

def reports (a : Arguments) (t : Document) (root : Option NodeId) (targets : List NodeId) :
    List Report :=
  let s := a.settings root
  targets.map (Report.check t s (s.queryScope t))

/-- What the choices of root and targets come to. -/
def survey (a : Arguments) (t : Document) : Except Complaint (List Report) := do
  let root ← a.chooseRoot t
  let targets ← a.chooseTargets t root
  return a.reports t root targets

/-- The warnings on the selectors, as far as they are read. -/
def selectorWarnings (a : Arguments) (t : Document) : List Warning :=
  a.root.toList.flatMap Selector.warnings ++
    match a.chooseRoot t with
    | .ok _ => a.select.toList.flatMap Selector.warnings
    | .error _ => []

/-- The reports as they are printed. -/
def print (a : Arguments) (reports : List Report) : String :=
  if a.json then Report.jsonList reports ++ "\n" else String.join (reports.map Report.line)

/-- The last line if targets failed; JSON speaks for itself. -/
def summary (a : Arguments) (reports : List Report) : String :=
  let failed := Report.failures reports
  if failed = 0 || a.json then ""
  else Report.red (toString failed ++ " of " ++ toString reports.length ++ " targets failed") ++
    "\n"

def serve (a : Arguments) (html : String) : Output :=
  let loaded := Markup.load html
  let t := loaded.document
  let warnings := loaded.remarks.map Markup.Remark.warning ++ a.selectorWarnings t
  let heard := ((WarningLog.fresh.setQuiet a.quiet).hearAll warnings).2
  let tree := if a.tree then "=== DOM Tree ===\n" ++ t.outline Document.root 0 ++ "\n" else ""
  match a.survey t with
  | .error complaint => { code := 1, out := tree, err := heard ++ complaint.text }
  | .ok reports =>
    { code := if Report.failures reports = 0 then 0 else 1
      out := tree ++ a.print reports
      err := heard ++ a.summary reports }

end Arguments

/-- A run on the words of the command line. -/
def session (read : FileReader) (words : List String) : Output :=
  match readArguments words with
  | .error .misuse => { code := 2, err := misuseText }
  | .error .version => { code := 0, out := versionText }
  | .error .help => { code := 0, out := helpText }
  | .ok a =>
    match a.load read with
    | .error complaint => { code := 1, err := complaint.text }
    | .ok html => a.serve html

end UniqueSelector.CommandLine
