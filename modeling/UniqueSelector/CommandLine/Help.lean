/-!
# Help — the words for the reader of a terminal
-/

namespace UniqueSelector.CommandLine

def versionText : String := "pinpoint 0.1.0\n"

/-- How an option is written, and what it is for. -/
def optionTexts : List (String × String) :=
  [("    --html <HTML>", "Parse this HTML string instead of a file"),
    ("-s, --select <SELECTOR>", "Only compute selectors for elements matching this selector"),
    ("    --root <SELECTOR>", "Resolve selectors against the first element matching this selector"),
    ("    --attr <NAME>", "Allow this attribute in selectors (repeatable)"),
    ("    --skip-id <NAME>", "Never use this id (repeatable)"),
    ("    --skip-class <NAME>", "Never use this class name (repeatable)"),
    ("    --skip-tag <NAME>", "Never use this tag name (repeatable)"),
    ("    --seed-min-length <SEED_MIN_LENGTH>",
      "Levels collected before the first uniqueness search [default: 1]"),
    ("    --optimized-min-length <OPTIMIZED_MIN_LENGTH>",
      "Selectors with this many parts or fewer are not optimized [default: 2]"),
    ("    --threshold <THRESHOLD>",
      "Largest number of combinations searched before narrowing [default: 1000]"),
    ("    --max-tries <MAX_TRIES>", "Cap on optimizer attempts [default: 10000]"),
    ("-j, --json", "Print a JSON report instead of colored lines"),
    ("    --tree", "Print the parsed DOM tree first"),
    ("-q, --quiet", "Suppress parser and selector warnings"),
    ("-h, --help", "Print help"),
    ("-V, --version", "Print version")]

/-- One line for an option, the explanations below each other. -/
def optionLine (form explanation : String) : String :=
  "  " ++ form ++ String.ofList (List.replicate (51 - form.length) ' ') ++ explanation ++ "\n"

def helpText : String :=
  "Compute and verify unique CSS selectors for elements of an HTML document\n\n" ++
  "Usage: pinpoint [OPTIONS] [FILE]\n\n" ++
  "Arguments:\n  [FILE]  Path to the HTML file\n\n" ++
  "Options:\n" ++ String.join (optionTexts.map fun (form, explanation) =>
    optionLine form explanation) ++
  "\nEXAMPLES:\n" ++
  "    # Selectors for every element in the body\n" ++
  "    pinpoint ./index.html\n\n" ++
  "    # Only buttons, with data-test attributes allowed\n" ++
  "    pinpoint ./index.html --select button --attr data-test\n\n" ++
  "    # Selectors relative to the main element\n" ++
  "    pinpoint ./index.html --root main\n\n" ++
  "    # Inline HTML, JSON output\n" ++
  "    pinpoint --html '<ul><li>a</li><li>b</li></ul>' --json\n\n"

/-- What is said about words that make no sense. -/
def misuseText : String :=
  "error: the arguments were not understood\n\nUsage: pinpoint [OPTIONS] [FILE]\n\n" ++
  "For more information, try '--help'.\n"

end UniqueSelector.CommandLine
