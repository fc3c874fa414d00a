import UniqueSelector.Text.Numeral

/-!
# Arguments — what the words of the command line ask for

An option has a long name, some a short one. Its value is the next word, which must not look like an
option, or is attached to the name. Short flags can be joined in one word. Behind a double hyphen
every word is a file.
-/

namespace UniqueSelector.CommandLine

/-! ## 1. Options -/

/-- Options with a value. -/
inductive ValueOption where
  | html
  | select
  | root
  | attr
  | skipId
  | skipClass
  | skipTag
  | seedMinLength
  | optimizedMinLength
  | threshold
  | maxTries
deriving DecidableEq

/-- Options without a value. -/
inductive Flag where
  | json
  | tree
  | quiet
  | version
  | help
deriving DecidableEq

inductive Switch where
  | value (option : ValueOption)
  | flag (flag : Flag)
deriving DecidableEq

/-- What a name behind two hyphens stands for. -/
def longNames : List (String × Switch) :=
  [("html", .value .html), ("select", .value .select), ("root", .value .root),
    ("attr", .value .attr), ("skip-id", .value .skipId), ("skip-class", .value .skipClass),
    ("skip-tag", .value .skipTag), ("seed-min-length", .value .seedMinLength),
    ("optimized-min-length", .value .optimizedMinLength), ("threshold", .value .threshold),
    ("max-tries", .value .maxTries), ("json", .flag .json), ("tree", .flag .tree),
    ("quiet", .flag .quiet), ("version", .flag .version), ("help", .flag .help)]

/-- What a letter behind one hyphen stands for. -/
def shortNames : List (Char × Switch) :=
  [('s', .value .select), ('j', .flag .json), ('q', .flag .quiet), ('V', .flag .version),
    ('h', .flag .help)]

/-! ## 2. Choices -/

structure Arguments where
  file : Option String := none
  html : Option String := none
  select : Option String := none
  root : Option String := none
  attrs : List String := []
  skipIds : List String := []
  skipClasses : List String := []
  skipTags : List String := []
  seedMinLength : Option Nat := none
  optimizedMinLength : Option Nat := none
  threshold : Option Nat := none
  maxTries : Option Nat := none
  json : Bool := false
  tree : Bool := false
  quiet : Bool := false
deriving DecidableEq

/-- Why there is nothing to run. -/
inductive Halt where
  /-- The words make no sense. -/
  | misuse
  | version
  | help
deriving DecidableEq

namespace Arguments

/-- A choice that can be made once. -/
def once (old : Option α) (value : α) : Except Halt (Option α) :=
  match old with
  | none => .ok (some value)
  | some _ => .error .misuse

/-- A count that can be given once. -/
def countOnce (old : Option Nat) (value : String) : Except Halt (Option Nat) :=
  match count? value.toList with
  | none => .error .misuse
  | some n => once old n

/-- Takes the value of an option; names can be given repeatedly. -/
def withValue (a : Arguments) (value : String) : ValueOption → Except Halt Arguments
  | .html => (once a.html value).map fun v => { a with html := v }
  | .select => (once a.select value).map fun v => { a with select := v }
  | .root => (once a.root value).map fun v => { a with root := v }
  | .attr => .ok { a with attrs := a.attrs ++ [value] }
  | .skipId => .ok { a with skipIds := a.skipIds ++ [value] }
  | .skipClass => .ok { a with skipClasses := a.skipClasses ++ [value] }
  | .skipTag => .ok { a with skipTags := a.skipTags ++ [value] }
  | .seedMinLength => (countOnce a.seedMinLength value).map fun v => { a with seedMinLength := v }
  | .optimizedMinLength =>
    (countOnce a.optimizedMinLength value).map fun v => { a with optimizedMinLength := v }
  | .threshold => (countOnce a.threshold value).map fun v => { a with threshold := v }
  | .maxTries => (countOnce a.maxTries value).map fun v => { a with maxTries := v }

/-- Sets a flag, once. -/
def withFlag (a : Arguments) : Flag → Except Halt Arguments
  | .json => if a.json then .error .misuse else .ok { a with json := true }
  | .tree => if a.tree then .error .misuse else .ok { a with tree := true }
  | .quiet => if a.quiet then .error .misuse else .ok { a with quiet := true }
  | .version => .error .version
  | .help => .error .help

/-- Takes a file; there is one at most, and it has a name. -/
def withFile (a : Arguments) (path : String) : Except Halt Arguments :=
  if path.isEmpty then .error .misuse else (once a.file path).map fun v => { a with file := v }

end Arguments

/-! ## 3. Words -/

structure Reader where
  arguments : Arguments := {}
  /-- The option whose value comes next. -/
  waiting : Option ValueOption := none
  /-- Whether the double hyphen has been met. -/
  filesOnly : Bool := false

namespace Reader

/-- A word that is no option: the value that is waited for, or a file. -/
def plain (r : Reader) (word : String) : Except Halt Reader :=
  match r.waiting with
  | some option =>
    (r.arguments.withValue word option).map fun a => { r with arguments := a, waiting := none }
  | none => (r.arguments.withFile word).map fun a => { r with arguments := a }

/-- A name behind two hyphens, perhaps with a value behind an equals sign. -/
def long (r : Reader) (name : String) (attached : Option String) : Except Halt Reader :=
  match longNames.lookup name, attached with
  | some (.value option), some value =>
    (r.arguments.withValue value option).map fun a => { r with arguments := a }
  | some (.value option), none => .ok { r with waiting := some option }
  | some (.flag flag), none => (r.arguments.withFlag flag).map fun a => { r with arguments := a }
  | _, _ => .error .misuse

/-- Letters behind one hyphen: flags, and perhaps an option with the rest of the word as
its value. -/
def cluster (r : Reader) : List Char → Except Halt Reader
  | [] => .ok r
  | letter :: rest =>
    match shortNames.lookup letter with
    | none => .error .misuse
    | some (.flag flag) => do
      let a ← r.arguments.withFlag flag
      cluster { r with arguments := a } rest
    | some (.value option) =>
      match rest with
      | [] => .ok { r with waiting := some option }
      | '=' :: value =>
        (r.arguments.withValue (String.ofList value) option).map fun a => { r with arguments := a }
      | value =>
        (r.arguments.withValue (String.ofList value) option).map fun a => { r with arguments := a }

/-- A word behind two hyphens, divided at its first equals sign. -/
def longWord (r : Reader) (word : List Char) : Except Halt Reader :=
  let name := word.takeWhile (· != '=')
  let attached := match word.dropWhile (· != '=') with
    | [] => none
    | _ :: value => some (String.ofList value)
  r.long (String.ofList name) attached

/-- One word. While a value is waited for, nothing that looks like an option will do. -/
def step (r : Reader) (word : String) : Except Halt Reader :=
  if r.filesOnly then
    if r.waiting.isSome then .error .misuse else r.plain word
  else match word.toList with
    | ['-', '-'] => .ok { r with filesOnly := true }
    | '-' :: '-' :: name => if r.waiting.isSome then .error .misuse else r.longWord name
    | '-' :: letter :: letters =>
      if r.waiting.isSome then .error .misuse else r.cluster (letter :: letters)
    | _ => r.plain word

end Reader

def readArguments (words : List String) : Except Halt Arguments := do
  let r ← words.foldlM Reader.step {}
  if r.waiting.isSome then .error .misuse else .ok r.arguments

end UniqueSelector.CommandLine
