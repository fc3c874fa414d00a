import UniqueSelector.Markup.Reference
import UniqueSelector.Text.Quote

/-!
# Lexer — markup read piece by piece

The lexer is a machine that looks at the first character of what is left to read. A step either
takes characters, or hands the same characters to another state, or meets the end of the input
and finishes.
-/

namespace UniqueSelector.Markup

/-! ## 1. States -/

/-- Where in the markup the lexer stands. -/
inductive LexState where
  | data
  /-- Inside an element whose content is text alone, up to the end tag `name`. -/
  | rawText (name : String)
  | tagOpen
  | endTagOpen
  | tagName
  | beforeAttributeName
  | attributeName
  | afterAttributeName
  | beforeAttributeValue
  | attributeValueQuoted (quote : Quote)
  | attributeValueUnquoted
  | afterAttributeValueQuoted
  | selfClosingStartTag
  | comment
  | bogusComment
deriving DecidableEq

def LexState.name : LexState → String
  | .data => "Data"
  | .rawText _ => "RawText"
  | .tagOpen => "TagOpen"
  | .endTagOpen => "EndTagOpen"
  | .tagName => "TagName"
  | .beforeAttributeName => "BeforeAttributeName"
  | .attributeName => "AttributeName"
  | .afterAttributeName => "AfterAttributeName"
  | .beforeAttributeValue => "BeforeAttributeValue"
  | .attributeValueQuoted .double => "AttributeValueDoubleQuoted"
  | .attributeValueQuoted .single => "AttributeValueSingleQuoted"
  | .attributeValueUnquoted => "AttributeValueUnquoted"
  | .afterAttributeValueQuoted => "AfterAttributeValueQuoted"
  | .selfClosingStartTag => "SelfClosingStartTag"
  | .comment => "Comment"
  | .bogusComment => "BogusComment"

/-! ## 2. The tag being read -/

/-- A tag that is not complete yet. -/
structure OpenTag where
  name : String := ""
  closing : Bool := false
  selfClosing : Bool := false
  attributes : List Attribute := []
  /-- The attribute being read. -/
  pending : Option Attribute := none

namespace OpenTag

def startAttribute (tag : OpenTag) : OpenTag := { tag with pending := some ⟨"", ""⟩ }

/-- A character of the attribute's name, in lower case. -/
def pushName (tag : OpenTag) (c : Char) : OpenTag :=
  { tag with pending := tag.pending.map fun a => { a with name := a.name.push c.toLower } }

def pushValue (tag : OpenTag) (c : Char) : OpenTag :=
  { tag with pending := tag.pending.map fun a => { a with value := a.value.push c } }

/-- The attribute being read joins the others, unless it has no name or its name is
there already. -/
def finishAttribute (tag : OpenTag) : OpenTag :=
  match tag.pending with
  | none => tag
  | some a =>
    if a.name.isEmpty || tag.attributes.any (·.name == a.name) then { tag with pending := none }
    else { tag with attributes := tag.attributes ++ [a], pending := none }

def token (tag : OpenTag) : Token :=
  if tag.closing then .endTag tag.name else .startTag tag.name tag.selfClosing tag.attributes

end OpenTag

/-- Elements whose content is text up to their end tag. -/
def rawTextElements : List String := ["script", "style", "textarea", "title"]

/-- Where reading goes on behind a complete tag. -/
def OpenTag.nextState (tag : OpenTag) : LexState :=
  if !tag.closing && !tag.selfClosing && rawTextElements.contains tag.name then .rawText tag.name
  else .data

/-! ## 3. The machine -/

/-- A lexer at work. -/
structure Lexer where
  rest : List Char
  state : LexState := .data
  finished : Bool := false
  tokens : Array Token := #[]
  /-- Characters that await the next token. -/
  text : String := ""
  tag : OpenTag := {}
  comment : String := ""
  remarks : Array Remark := #[]

namespace Lexer

def goto (l : Lexer) (state : LexState) (rest : List Char) : Lexer := { l with state, rest }

def pushText (l : Lexer) (c : Char) : Lexer := { l with text := l.text.push c }

/-- The text that has gathered becomes a token. -/
def flushText (l : Lexer) : Lexer :=
  if l.text.isEmpty then l else { l with tokens := l.tokens.push (.text l.text), text := "" }

/-- A token after the text that has gathered. -/
def emit (l : Lexer) (t : Token) : Lexer :=
  let l := l.flushText
  { l with tokens := l.tokens.push t }

def remark (l : Lexer) (r : Remark) : Lexer := { l with remarks := l.remarks.push r }

def finish (l : Lexer) : Lexer := { l.emit .endOfFile with finished := true }

/-- The end of the input inside a tag: the tag is dropped. -/
def abandonTag (l : Lexer) : Lexer := (l.remark (.unfinishedTag l.state.name)).finish

def emitTag (l : Lexer) (rest : List Char) : Lexer :=
  let tag := l.tag.finishAttribute
  { l.emit tag.token with tag := {}, state := tag.nextState, rest }

def emitComment (l : Lexer) (rest : List Char) : Lexer :=
  { l.emit (.comment l.comment) with comment := "", state := .data, rest }

def startTag (l : Lexer) (closing : Bool) : Lexer :=
  { l with tag := { closing }, state := .tagName }

def startComment (l : Lexer) (state : LexState) (rest : List Char) : Lexer :=
  { l with comment := "", state, rest }

/-! ## 4. Steps -/

/-- What follows the end tag `name`, if `cs` is what stands behind the opening bracket of one. -/
def dropEndTag? (name : String) : List Char → Option (List Char)
  | '/' :: cs => (dropLetters? name.toList cs).filter fun after =>
      match after with
      | [] => true
      | c :: _ => c == '/' || c == '>' || isBlank c
  | _ => none

/-- A comment, a document type, or anything else that begins with an exclamation mark. -/
def declaration (l : Lexer) (cs : List Char) : Lexer :=
  match cs with
  | '-' :: '-' :: cs => l.startComment .comment cs
  | cs =>
    match dropLetters? "doctype".toList cs with
    | none => l.startComment .bogusComment cs
    | some after =>
      -- The name is the first word; the rest of the declaration is skipped.
      let name := (splitWords (after.takeWhile (· != '>'))).headD []
      (l.emit (.doctype (String.ofList (name.map Char.toLower)))).goto .data
        (after.dropWhile (· != '>')).tail

def textReference (l : Lexer) (cs : List Char) : Lexer :=
  let r := resolve false cs
  let l := { l.pushText r.character with rest := r.rest }
  match r.remark with
  | none => l
  | some remark => l.remark remark

def valueReference (l : Lexer) (cs : List Char) : Lexer :=
  let r := resolve true cs
  let l := { l with tag := l.tag.pushValue r.character, rest := r.rest }
  match r.remark with
  | none => l
  | some remark => l.remark remark

def stepData (l : Lexer) : List Char → Lexer
  | [] => l.finish
  | c :: cs =>
    if c == '&' then l.textReference cs
    else if c == '<' then l.goto .tagOpen cs
    else { l.pushText c with rest := cs }

def stepRawText (l : Lexer) (name : String) : List Char → Lexer
  | [] => l.finish
  | c :: cs =>
    -- Nothing but the end tag of the element itself is markup in here.
    match if c == '<' then dropEndTag? name cs else none with
    | some after => { l with tag := { name, closing := true }, state := .tagName, rest := after }
    | none => { l.pushText c with rest := cs }

def stepTagOpen (l : Lexer) : List Char → Lexer
  | [] => (l.pushText '<').goto .data []
  | c :: cs =>
    if c == '!' then l.declaration cs
    else if c == '/' then l.goto .endTagOpen cs
    -- The letter is left where it is: it belongs to the name.
    else if c.isAlpha then l.startTag false
    -- A processing instruction is kept as a comment, its question mark included.
    else if c == '?' then l.startComment .bogusComment (c :: cs)
    else (l.pushText '<').goto .data (c :: cs)

def stepEndTagOpen (l : Lexer) : List Char → Lexer
  | [] => ((l.pushText '<').pushText '/').goto .data []
  | c :: cs =>
    if c.isAlpha then l.startTag true
    -- An end tag without a name leaves nothing behind.
    else if c == '>' then l.goto .data cs
    else l.startComment .bogusComment (c :: cs)

def stepTagName (l : Lexer) : List Char → Lexer
  | [] => l.abandonTag
  | c :: cs =>
    if isBlank c then l.goto .beforeAttributeName cs
    else if c == '/' then l.goto .selfClosingStartTag cs
    else if c == '>' then l.emitTag cs
    else { l with tag := { l.tag with name := l.tag.name.push c.toLower }, rest := cs }

def stepBeforeAttributeName (l : Lexer) : List Char → Lexer
  | [] => l.goto .afterAttributeName []
  | c :: cs =>
    if isBlank c then l.goto .beforeAttributeName cs
    else if c == '/' || c == '>' then l.goto .afterAttributeName (c :: cs)
    else { l with tag := l.tag.startAttribute, state := .attributeName }

/-- Whether a character ends the name of an attribute that has no value. -/
def endsAttributeName (c : Char) : Bool := c == '/' || c == '>' || isBlank c

def stepAttributeName (l : Lexer) : List Char → Lexer
  | [] => l.goto .afterAttributeName []
  | c :: cs =>
    if endsAttributeName c then l.goto .afterAttributeName (c :: cs)
    else if c == '=' then l.goto .beforeAttributeValue cs
    else { l with tag := l.tag.pushName c, rest := cs }

def stepAfterAttributeName (l : Lexer) : List Char → Lexer
  | [] => l.abandonTag
  | c :: cs =>
    if isBlank c then l.goto .afterAttributeName cs
    else if c == '/' then
      { l with tag := l.tag.finishAttribute, state := .selfClosingStartTag, rest := cs }
    else if c == '=' then l.goto .beforeAttributeValue cs
    else if c == '>' then l.emitTag cs
    else { l with tag := l.tag.finishAttribute.startAttribute, state := .attributeName }

def stepBeforeAttributeValue (l : Lexer) : List Char → Lexer
  | [] => l.goto .attributeValueUnquoted []
  | c :: cs =>
    if isBlank c then l.goto .beforeAttributeValue cs
    else if c == '"' then l.goto (.attributeValueQuoted .double) cs
    else if c == '\'' then l.goto (.attributeValueQuoted .single) cs
    else if c == '>' then l.emitTag cs
    else l.goto .attributeValueUnquoted (c :: cs)

def stepAttributeValueQuoted (l : Lexer) (quote : Quote) : List Char → Lexer
  | [] => l.abandonTag
  | c :: cs =>
    if c == quote.char then
      { l with tag := l.tag.finishAttribute, state := .afterAttributeValueQuoted, rest := cs }
    else if c == '&' then l.valueReference cs
    else { l with tag := l.tag.pushValue c, rest := cs }

def stepAttributeValueUnquoted (l : Lexer) : List Char → Lexer
  | [] => l.abandonTag
  | c :: cs =>
    if isBlank c then
      { l with tag := l.tag.finishAttribute, state := .beforeAttributeName, rest := cs }
    else if c == '&' then l.valueReference cs
    else if c == '>' then l.emitTag cs
    else { l with tag := l.tag.pushValue c, rest := cs }

def stepAfterAttributeValueQuoted (l : Lexer) : List Char → Lexer
  | [] => l.abandonTag
  | c :: cs =>
    if isBlank c then l.goto .beforeAttributeName cs
    else if c == '/' then l.goto .selfClosingStartTag cs
    else if c == '>' then l.emitTag cs
    else l.goto .beforeAttributeName (c :: cs)

def stepSelfClosingStartTag (l : Lexer) : List Char → Lexer
  | [] => l.abandonTag
  | c :: cs =>
    if c == '>' then { l with tag := { l.tag with selfClosing := true } }.emitTag cs
    else l.goto .beforeAttributeName (c :: cs)

def stepComment (l : Lexer) : List Char → Lexer
  -- What there is of the comment is kept.
  | [] => ((l.remark .unterminatedComment).emitComment []).finish
  | '-' :: '-' :: '>' :: cs => l.emitComment cs
  | c :: cs => { l with comment := l.comment.push c, rest := cs }

def stepBogusComment (l : Lexer) : List Char → Lexer
  | [] => (l.emitComment []).finish
  | c :: cs =>
    if c == '>' then l.emitComment cs else { l with comment := l.comment.push c, rest := cs }

/-- One step, by the state and the first character of what is left. -/
def step (l : Lexer) : Lexer :=
  match l.state with
  | .data => l.stepData l.rest
  | .rawText name => l.stepRawText name l.rest
  | .tagOpen => l.stepTagOpen l.rest
  | .endTagOpen => l.stepEndTagOpen l.rest
  | .tagName => l.stepTagName l.rest
  | .beforeAttributeName => l.stepBeforeAttributeName l.rest
  | .attributeName => l.stepAttributeName l.rest
  | .afterAttributeName => l.stepAfterAttributeName l.rest
  | .beforeAttributeValue => l.stepBeforeAttributeValue l.rest
  | .attributeValueQuoted quote => l.stepAttributeValueQuoted quote l.rest
  | .attributeValueUnquoted => l.stepAttributeValueUnquoted l.rest
  | .afterAttributeValueQuoted => l.stepAfterAttributeValueQuoted l.rest
  | .selfClosingStartTag => l.stepSelfClosingStartTag l.rest
  | .comment => l.stepComment l.rest
  | .bogusComment => l.stepBogusComment l.rest

end Lexer

end UniqueSelector.Markup
