import UniqueSelector.Markup.Lexer.Run
import UniqueSelector.Document.Traversal

/-!
# Construction — a document from tokens

Tokens are taken one by one. Start tags open elements, end tags close them, and what is
missing around the content (the elements `html`, `head` and `body`, and some end tags) is
supplied on the way.
-/

namespace UniqueSelector.Markup

/-! ## 1. Kinds of elements -/

/-- Elements without content and without an end tag. -/
def voidElements : List String :=
  ["area", "base", "br", "col", "embed", "hr", "img", "input", "link", "meta", "param", "source",
    "track", "wbr"]

/-- Elements that belong to the head as long as there is no body. -/
def headElements : List String := ["base", "link", "meta", "script", "style", "title", "noscript"]

/-- Elements that end a paragraph when they begin. -/
def paragraphEnders : List String :=
  ["address", "article", "aside", "blockquote", "details", "div", "dl", "fieldset", "figure",
    "footer", "form", "h1", "h2", "h3", "h4", "h5", "h6", "header", "hr", "main", "nav", "ol", "p",
    "ul"]

/-- An element of a group ends an open element of the same group when it begins. -/
def exclusiveGroups : List (List String) := [["li"], ["dt", "dd"], ["option"]]

/-! ## 2. State -/

/-- A document in the making. -/
structure Construction where
  document : Document := .empty
  /-- The elements that are open, innermost first. -/
  opened : List NodeId := []
  html : Option NodeId := none
  head : Option NodeId := none
  body : Option NodeId := none
  remarks : Array Remark := #[]

namespace Construction

def tag? (b : Construction) (id : NodeId) : Option String :=
  (b.document.element? id).map Element.tag

/-- Where content goes: the innermost open element, or else the document. -/
def currentNode (b : Construction) : NodeId := b.opened.head?.getD Document.root

def currentTag (b : Construction) : Option String := b.opened.head?.bind b.tag?

def currentTagIn (b : Construction) (tags : List String) : Bool :=
  (b.currentTag.map tags.contains).getD false

/-! ## 3. Building blocks -/

def insert (b : Construction) (parent : NodeId) (kind : NodeKind) : Construction × NodeId :=
  let (document, id) := b.document.add parent kind
  ({ b with document }, id)

def insertElement (b : Construction) (parent : NodeId) (tag : String) (attrs : Attributes) :
    Construction × NodeId :=
  b.insert parent (.element { tag, attrs })

def push (b : Construction) (id : NodeId) : Construction := { b with opened := id :: b.opened }

def pop (b : Construction) : Construction := { b with opened := b.opened.tail }

def popUntil (b : Construction) (id : NodeId) : Construction :=
  { b with opened := b.opened.dropWhile (· != id) }

/-- The element `html`, supplied as the outermost open element if it is missing. -/
def ensureHtml (b : Construction) : Construction × NodeId :=
  match b.html with
  | some html => (b, html)
  | none =>
    let (b, html) := b.insertElement Document.root "html" .empty
    -- It goes below all that is open, so nothing is closed by it.
    ({ b with html := some html, opened := b.opened ++ [html] }, html)

/-- The element `head`, supplied but not opened if it is missing. -/
def ensureHead (b : Construction) : Construction × NodeId :=
  match b.head with
  | some head => (b, head)
  | none =>
    let (b, html) := b.ensureHtml
    let (b, head) := b.insertElement html "head" .empty
    ({ b with head := some head }, head)

/-- Opens a new body below `html`; what is open inside `html` is closed. -/
def openBody (b : Construction) (attrs : Attributes) : Construction × NodeId :=
  let (b, html) := b.ensureHtml
  let (b, body) := (b.popUntil html).insertElement html "body" attrs
  ({ b with body := some body }.push body, body)

/-- The element `body`, opened, and supplied if it is missing. -/
def ensureBody (b : Construction) : Construction × NodeId :=
  match b.body with
  -- A body that was closed is opened again.
  | some body => (if b.opened.contains body then b else b.push body, body)
  | none => b.openBody .empty

/-- The element stays open unless it is void. -/
def pushUnlessVoid (b : Construction) (tag : String) (id : NodeId) : Construction :=
  if voidElements.contains tag then b else b.push id

/-- Closes a paragraph that an element `tag` ends. -/
def closeParagraph (b : Construction) (tag : String) : Construction :=
  if paragraphEnders.contains tag && b.currentTagIn ["p"] then b.pop else b

/-- Closes an element of the group of `tag`. -/
def closeGroup (b : Construction) (tag : String) : Construction :=
  match exclusiveGroups.find? (·.contains tag) with
  | none => b
  | some group => if b.currentTagIn group then b.pop else b

/-! ## 4. Tokens -/

/-- A start tag `html`; only the first one counts. -/
def startHtml (b : Construction) (attrs : Attributes) : Construction :=
  match b.html with
  | some _ => b
  | none =>
    let (b, html) := b.insertElement Document.root "html" attrs
    { b with html := some html }.push html

/-- A start tag `head`; it counts only if there is neither a head nor a body. -/
def startHead (b : Construction) (attrs : Attributes) : Construction :=
  let (b, html) := b.ensureHtml
  if b.head.isNone && b.body.isNone then
    let (b, head) := b.insertElement html "head" attrs
    { b with head := some head }.push head
  else b

/-- A start tag `body`; only the first one counts. -/
def startBody (b : Construction) (attrs : Attributes) : Construction :=
  if b.body.isNone then (b.openBody attrs).1 else b

def startInHead (b : Construction) (tag : String) (attrs : Attributes) : Construction :=
  let (b, head) := b.ensureHead
  let (b, id) := b.insertElement head tag attrs
  b.pushUnlessVoid tag id

def startInBody (b : Construction) (tag : String) (attrs : Attributes) : Construction :=
  -- Only the innermost element can be ended so; what is open further out stays.
  let b := (b.ensureBody.1.closeParagraph tag).closeGroup tag
  let (b, id) := b.insertElement b.currentNode tag attrs
  b.pushUnlessVoid tag id

def startTag (b : Construction) (tag : String) (attrs : Attributes) : Construction :=
  if tag = "html" then b.startHtml attrs
  else if tag = "head" then b.startHead attrs
  else if tag = "body" then b.startBody attrs
  else if b.body.isNone && headElements.contains tag then b.startInHead tag attrs
  else b.startInBody tag attrs

/-- An end tag closes the innermost open element of its name and all that is open inside it. -/
def endTag (b : Construction) (tag : String) : Construction :=
  -- The first two stay open to the end, and void elements were never opened.
  if tag = "html" || tag = "body" || voidElements.contains tag then b
  else match b.opened.dropWhile (fun id => b.tag? id != some tag) with
    | [] => { b with remarks := b.remarks.push (.unmatchedEndTag tag) }
    | _ :: opened => { b with opened }

/-- Whether the content stands before the body, directly below `html`, `head` or the document. -/
def beforeBody (b : Construction) : Bool :=
  match b.currentTag with
  | none => true
  | some tag => tag == "html" || tag == "head"

/-- A text; before the body blanks are dropped, and anything else begins the body. -/
def insertText (b : Construction) (data : String) : Construction :=
  if b.beforeBody then
    if allBlank data then b
    else
      let (b, body) := b.ensureBody
      (b.insert body (.text data)).1
  else (b.insert b.currentNode (.text data)).1

def step (b : Construction) : Token → Construction
  | .doctype _ => b
  | .comment data => (b.insert b.currentNode (.comment data)).1
  | .text data => b.insertText data
  | .startTag name _ attributes => b.startTag name (.ofList attributes)
  | .endTag name => b.endTag name
  | .endOfFile => b

/-- Tokens up to the end mark. -/
def run (b : Construction) : List Token → Construction
  | [] => b
  | .endOfFile :: _ => b
  | token :: tokens => run (b.step token) tokens

end Construction

/-- The document that the tokens describe, with what was remarked on. -/
def construct (tokens : List Token) : Construction := Construction.run {} tokens

/-! ## 5. Documents from text -/

/-- A document with the remarks on the text that it was read from. -/
structure Loaded where
  document : Document
  remarks : List Remark

/-- Reads a document; the remarks on tokens come before those on their nesting. -/
def load (html : String) : Loaded :=
  let lexer := lex html
  let built := construct lexer.tokens.toList
  ⟨built.document, lexer.remarks.toList ++ built.remarks.toList⟩

def parse (html : String) : Document := (load html).document

end UniqueSelector.Markup
