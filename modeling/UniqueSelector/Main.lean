import UniqueSelector.CommandLine.Session

/-!
# Main — the program on a terminal

The only effects are reading one file and printing what the run leaves behind.
-/

namespace UniqueSelector.CommandLine

/-- The words of the system for a file that cannot be read. -/
def unreadableReason : IO.Error → String
  | .noFileOrDirectory .. => "No such file or directory (os error 2)"
  | .permissionDenied .. => "Permission denied (os error 13)"
  | .inappropriateType _ code _ =>
    if code = 21 then "Is a directory (os error 21)" else "Not a directory (os error 20)"
  | other => toString other

/-- The content of a file, or the reason why there is none. -/
def fetch (path : String) : IO (Except String ByteArray) := do
  try
    return .ok (← IO.FS.readBinFile path)
  catch error =>
    return .error (unreadableReason error)

/-- The content of the file that the words name, if they name one and it is needed. -/
def fetchFor (words : List String) : IO (Except String ByteArray) :=
  match readArguments words with
  | .ok { html := none, file := some path, .. } => fetch path
  | _ => return .error ""

end UniqueSelector.CommandLine

open UniqueSelector.CommandLine in
def main (words : List String) : IO UInt32 := do
  let content ← fetchFor words
  let output := session (fun _ => content) words
  IO.print output.out
  IO.eprint output.err
  return output.code
