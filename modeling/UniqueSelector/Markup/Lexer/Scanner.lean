import UniqueSelector.Markup.Lexer.Run

/-!
# Scanner — the lexer over a text that is addressed by number

The scanner keeps the whole text and a position in it. Each turn fetches the character at the
position and moves on, unless the turn before left its character to be looked at again. What comes
next is looked up by number, or the text from the position on is taken, and there is no such text
for a position behind the end. What becomes of the characters is left to the lexer.
-/

namespace UniqueSelector.Markup

/-! ## 1. Looking ahead -/

/-- The text from a position on; none if the position lies behind the end. -/
def slice? (input : Array Char) (position : Nat) : Option (List Char) :=
  if position ≤ input.size then some (input.toList.drop position) else none

/-- Whether the characters from a position on are those of a word, by the comparison `same`. -/
def standsAt (input : Array Char) (same : Char → Char → Bool) :
    (position : Nat) → (word : List Char) → Bool
  | _, [] => true
  | position, w :: ws =>
    match input[position]? with
    | none => false
    | some c => same c w && standsAt input same (position + 1) ws

/-- The characters in front of the next closing bracket, and the position behind it; without one,
all that is left. -/
def takeDeclaration (input : Array Char) (position : Nat) : List Char × Nat :=
  if h : position < input.size then
    if input[position] == '>' then ([], position + 1)
    else
      let (raw, behind) := takeDeclaration input (position + 1)
      (input[position] :: raw, behind)
  else ([], position)
termination_by input.size - position

/-! ## 2. References -/

/-- What an ampersand stands for, the position to go on from, and a remark if the name is
not known. -/
structure Referenced where
  character : Char
  position : Nat
  remark : Option Remark := none

/-- What digits in a base stand for, and the position behind them; `start` is that of the
number sign. -/
def referenceOfDigits (input : Array Char) (start position base : Nat) (digits : List Char) :
    Referenced :=
  if digits.isEmpty then ⟨'&', start, none⟩
  else
    let position := position + digits.length
    let position := if input[position]? == some ';' then position + 1 else position
    ⟨charOf (numberOf base digits), position, none⟩

/-- A reference by number; the position is that of the number sign. -/
def numericReference? (input : Array Char) (start : Nat) : Option Referenced := do
  let hex := input[start + 1]? == some 'x' || input[start + 1]? == some 'X'
  let position := if hex then start + 2 else start + 1
  let digits := (← slice? input position).takeWhile (if hex then isHexDigit else Char.isDigit)
  return referenceOfDigits input start position (if hex then 16 else 10) digits

/-- A reference at the position behind an ampersand. -/
def reference? (input : Array Char) (inAttribute : Bool) (position : Nat) : Option Referenced := do
  if input[position]? == some '#' then return ← numericReference? input position
  let name := ((← slice? input position).takeWhile Char.isAlphanum).take 32
  if name.isEmpty then return ⟨'&', position, none⟩
  let closed := input[position + name.length]? == some ';'
  match namedReferences.find? (·.name.toList == name) with
  | some known =>
    if closed then return ⟨known.character, position + name.length + 1, none⟩
    else if known.semicolonOptional && !inAttribute then
      return ⟨known.character, position + name.length, none⟩
    else return ⟨'&', position, none⟩
  | none =>
    return ⟨'&', position, if closed then some (.unknownReference (String.ofList name)) else none⟩

/-! ## 3. The machine -/

/-- A scanner at work. -/
structure Scanner where
  input : Array Char
  position : Nat := 0
  /-- The character that was fetched last; none at the end of the text. -/
  current : Option Char := none
  /-- The next turn looks at the same character instead of fetching one. -/
  again : Bool := false
  /-- What became of the characters so far. What is left to be read is not kept in here. -/
  lexer : Lexer := { rest := [] }

namespace Scanner

def startsWith (s : Scanner) (word : String) : Bool :=
  standsAt s.input (· == ·) s.position word.toList

def startsWithLetters (s : Scanner) (word : String) : Bool :=
  standsAt s.input (fun c w => c.toLower == w.toLower) s.position word.toList

def advance (s : Scanner) (n : Nat) : Scanner := { s with position := s.position + n }

def on (s : Scanner) (f : Lexer → Lexer) : Scanner := { s with lexer := f s.lexer }

def switchTo (s : Scanner) (state : LexState) : Scanner := s.on ({ · with state })

/-- The character goes to another state as well. -/
def reconsumeIn (s : Scanner) (state : LexState) : Scanner :=
  { s.switchTo state with again := true }

/-- The character of the turn. -/
def fetch (s : Scanner) : Scanner :=
  if s.again then { s with again := false }
  else match s.input[s.position]? with
    | none => { s with current := none }
    | some c => { s with current := some c, position := s.position + 1 }

/-! ## 4. Steps -/

/-- Whether the end tag of the element `name` follows the opening bracket. -/
def atEndTag (s : Scanner) (name : String) : Bool :=
  s.startsWithLetters ("/" ++ name) &&
    match s.input[s.position + ("/" ++ name).length]? with
    | none => true
    | some c => c == '/' || c == '>' || isBlank c

def declaration (s : Scanner) : Scanner :=
  if s.startsWith "--" then (s.advance 2).on (·.startComment .comment [])
  else if s.startsWithLetters "doctype" then
    let (raw, position) := takeDeclaration s.input (s.position + "doctype".length)
    let name := (splitWords raw).headD []
    { s with position }.on fun l =>
      (l.emit (.doctype (String.ofList (name.map Char.toLower)))).goto .data []
  else s.on (·.startComment .bogusComment [])

/-- The character that a reference stands for is handed to `push`. -/
def referTo (s : Scanner) (inAttribute : Bool) (push : Lexer → Char → Lexer) : Option Scanner := do
  let r ← reference? s.input inAttribute s.position
  let s := { s with position := r.position }.on fun l => push l r.character
  match r.remark with
  | none => return s
  | some remark => return s.on (·.remark remark)

def pushValue (l : Lexer) (c : Char) : Lexer := { l with tag := l.tag.pushValue c }

def stepData (s : Scanner) : Option Char → Option Scanner
  | none => some (s.on (·.finish))
  | some c =>
    if c == '&' then s.referTo false Lexer.pushText
    else if c == '<' then some (s.switchTo .tagOpen)
    else some (s.on (·.pushText c))

def stepRawText (s : Scanner) (name : String) : Option Char → Scanner
  | none => s.on (·.finish)
  | some c =>
    if c == '<' && s.atEndTag name then
      (s.advance (1 + name.length)).on fun l =>
        { l with tag := { name, closing := true }, state := .tagName }
    else s.on (·.pushText c)

def stepTagOpen (s : Scanner) : Option Char → Scanner
  | none => (s.on (·.pushText '<')).reconsumeIn .data
  | some c =>
    if c == '!' then s.declaration
    else if c == '/' then s.switchTo .endTagOpen
    else if c.isAlpha then (s.on (·.startTag false)).reconsumeIn .tagName
    else if c == '?' then (s.on fun l => { l with comment := "" }).reconsumeIn .bogusComment
    else (s.on (·.pushText '<')).reconsumeIn .data

def stepEndTagOpen (s : Scanner) : Option Char → Scanner
  | none => (s.on fun l => (l.pushText '<').pushText '/').reconsumeIn .data
  | some c =>
    if c.isAlpha then (s.on (·.startTag true)).reconsumeIn .tagName
    else if c == '>' then s.switchTo .data
    else (s.on fun l => { l with comment := "" }).reconsumeIn .bogusComment

def stepTagName (s : Scanner) : Option Char → Scanner
  | none => s.on (·.abandonTag)
  | some c =>
    if isBlank c then s.switchTo .beforeAttributeName
    else if c == '/' then s.switchTo .selfClosingStartTag
    else if c == '>' then s.on (·.emitTag [])
    else s.on fun l => { l with tag := { l.tag with name := l.tag.name.push c.toLower } }

def stepBeforeAttributeName (s : Scanner) : Option Char → Scanner
  | none => s.reconsumeIn .afterAttributeName
  | some c =>
    if isBlank c then s
    else if c == '/' || c == '>' then s.reconsumeIn .afterAttributeName
    else (s.on fun l => { l with tag := l.tag.startAttribute }).reconsumeIn .attributeName

def stepAttributeName (s : Scanner) : Option Char → Scanner
  | none => s.reconsumeIn .afterAttributeName
  | some c =>
    if Lexer.endsAttributeName c then s.reconsumeIn .afterAttributeName
    else if c == '=' then s.switchTo .beforeAttributeValue
    else s.on fun l => { l with tag := l.tag.pushName c }

def stepAfterAttributeName (s : Scanner) : Option Char → Scanner
  | none => s.on (·.abandonTag)
  | some c =>
    if isBlank c then s
    else if c == '/' then s.on fun l =>
      { l with tag := l.tag.finishAttribute, state := .selfClosingStartTag }
    else if c == '=' then s.switchTo .beforeAttributeValue
    else if c == '>' then s.on (·.emitTag [])
    else (s.on fun l => { l with tag := l.tag.finishAttribute.startAttribute }).reconsumeIn
      .attributeName

def stepBeforeAttributeValue (s : Scanner) : Option Char → Scanner
  | none => s.reconsumeIn .attributeValueUnquoted
  | some c =>
    if isBlank c then s
    else if c == '"' then s.switchTo (.attributeValueQuoted .double)
    else if c == '\'' then s.switchTo (.attributeValueQuoted .single)
    else if c == '>' then s.on (·.emitTag [])
    else s.reconsumeIn .attributeValueUnquoted

def stepAttributeValueQuoted (s : Scanner) (quote : Quote) : Option Char → Option Scanner
  | none => some (s.on (·.abandonTag))
  | some c =>
    if c == quote.char then
      some (s.on fun l =>
        { l with tag := l.tag.finishAttribute, state := .afterAttributeValueQuoted })
    else if c == '&' then s.referTo true pushValue
    else some (s.on fun l => pushValue l c)

def stepAttributeValueUnquoted (s : Scanner) : Option Char → Option Scanner
  | none => some (s.on (·.abandonTag))
  | some c =>
    if isBlank c then
      some (s.on fun l => { l with tag := l.tag.finishAttribute, state := .beforeAttributeName })
    else if c == '&' then s.referTo true pushValue
    else if c == '>' then some (s.on (·.emitTag []))
    else some (s.on fun l => pushValue l c)

def stepAfterAttributeValueQuoted (s : Scanner) : Option Char → Scanner
  | none => s.on (·.abandonTag)
  | some c =>
    if isBlank c then s.switchTo .beforeAttributeName
    else if c == '/' then s.switchTo .selfClosingStartTag
    else if c == '>' then s.on (·.emitTag [])
    else s.reconsumeIn .beforeAttributeName

def stepSelfClosingStartTag (s : Scanner) : Option Char → Scanner
  | none => s.on (·.abandonTag)
  | some c =>
    if c == '>' then s.on fun l => { l with tag := { l.tag with selfClosing := true } }.emitTag []
    else s.reconsumeIn .beforeAttributeName

def stepComment (s : Scanner) : Option Char → Scanner
  | none => s.on fun l => ((l.remark .unterminatedComment).emitComment []).finish
  | some c =>
    if c == '-' && s.startsWith "->" then (s.advance 2).on (·.emitComment [])
    else s.on fun l => { l with comment := l.comment.push c }

def stepBogusComment (s : Scanner) : Option Char → Scanner
  | none => s.on fun l => (l.emitComment []).finish
  | some c =>
    if c == '>' then s.on (·.emitComment [])
    else s.on fun l => { l with comment := l.comment.push c }

/-- What the state makes of the character; nothing if a text is taken from behind the end. -/
def step (s : Scanner) : Option Scanner :=
  match s.lexer.state with
  | .data => s.stepData s.current
  | .rawText name => some (s.stepRawText name s.current)
  | .tagOpen => some (s.stepTagOpen s.current)
  | .endTagOpen => some (s.stepEndTagOpen s.current)
  | .tagName => some (s.stepTagName s.current)
  | .beforeAttributeName => some (s.stepBeforeAttributeName s.current)
  | .attributeName => some (s.stepAttributeName s.current)
  | .afterAttributeName => some (s.stepAfterAttributeName s.current)
  | .beforeAttributeValue => some (s.stepBeforeAttributeValue s.current)
  | .attributeValueQuoted quote => s.stepAttributeValueQuoted quote s.current
  | .attributeValueUnquoted => s.stepAttributeValueUnquoted s.current
  | .afterAttributeValueQuoted => some (s.stepAfterAttributeValueQuoted s.current)
  | .selfClosingStartTag => some (s.stepSelfClosingStartTag s.current)
  | .comment => some (s.stepComment s.current)
  | .bogusComment => some (s.stepBogusComment s.current)

/-- One turn of the loop. -/
def turn (s : Scanner) : Option Scanner := s.fetch.step

def ofString (html : String) : Scanner := { input := html.toList.toArray }

/-- The scanner behind so many rounds of the loop, which a finished scanner has left. -/
def behind (s : Scanner) : (rounds : Nat) → Option Scanner
  | 0 => some s
  | rounds + 1 => if s.lexer.finished then some s else s.turn.bind (behind · rounds)

end Scanner

end UniqueSelector.Markup
