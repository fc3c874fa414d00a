/-!
# Warning — what is reported once

A warning names the part that speaks and what it says. Each is printed the first time it is heard,
and stays silent until the memory is cleared; in quiet mode it is remembered but not printed.
-/

namespace UniqueSelector

/-- A remark of one part of the program on its input. -/
structure Warning where
  component : String
  message : String
deriving DecidableEq

namespace Warning

/-- The form under which a warning is remembered. -/
def key (w : Warning) : String := "[" ++ w.component ++ "] " ++ w.message

/-- The yellow line that shows a warning. -/
def line (w : Warning) : String :=
  "\x1b[33m[Pinpoint " ++ w.component ++ "] ⚠ " ++ w.message ++ "\x1b[0m\n"

end Warning

/-- What has been heard so far, and whether to keep silent. -/
structure WarningLog where
  heard : List String := []
  quiet : Bool := false

namespace WarningLog

/-- Nothing is heard yet and warnings are printed. -/
def fresh : WarningLog := {}

/-- Remembers `w`; the text is what appears on the error stream. -/
def hear (log : WarningLog) (w : Warning) : WarningLog × String :=
  if log.heard.contains w.key then (log, "")
  else ({ log with heard := w.key :: log.heard }, if log.quiet then "" else w.line)

/-- Hears the warnings one after another and joins what appears. -/
def hearAll (log : WarningLog) : List Warning → WarningLog × String
  | [] => (log, "")
  | w :: ws =>
    let (log, first) := log.hear w
    let (log, others) := log.hearAll ws
    (log, first ++ others)

/-- Forgets what was heard; the mode stays. -/
def clear (log : WarningLog) : WarningLog := { log with heard := [] }

/-- Chooses the mode; what was heard stays. -/
def setQuiet (log : WarningLog) (quiet : Bool) : WarningLog := { log with quiet }

end WarningLog

end UniqueSelector
