import UniqueSelector.Document.Attributes

/-!
# Document — a tree of nodes addressed by number

Nodes live in one array and name each other by their place in it; place 0 is the document itself.
Each node knows its parent, its children, and its neighbours among them. A node is first allocated,
attached to nothing, and then appended below a parent.
-/

namespace UniqueSelector

/-- The place of a node in its document. -/
abbrev NodeId := Nat

/-- How a message names a node. -/
def NodeId.shown (id : NodeId) : String := "NodeId(" ++ toString id ++ ")"

/-! ## 1. Elements -/

structure Element where
  tag : String
  attrs : Attributes := {}
deriving DecidableEq

namespace Element

def id? (e : Element) : Option String := e.attrs.get? "id"

/-- The words of the attribute `class`, repetitions kept; none without the attribute. -/
def classTokens (e : Element) : List String := words ((e.attrs.get? "class").getD "")

/-- The classes in order, each once, at its first place. -/
def classes (e : Element) : List String :=
  e.classTokens.foldl (fun seen c => if seen.contains c then seen else seen ++ [c]) []

/-- Whether `name` is one of the classes. -/
def hasClass (e : Element) (name : String) : Bool :=
  ((e.attrs.get? "class").map fun v => (words v).any (· == name)).getD false

end Element

/-! ## 2. Nodes -/

inductive NodeKind where
  | document
  | element (e : Element)
  | text (data : String)
  | comment (data : String)
deriving DecidableEq

structure Node where
  kind : NodeKind
  parent : Option NodeId := none
  children : Array NodeId := #[]
  next : Option NodeId := none
  prev : Option NodeId := none
deriving DecidableEq

/-- The nodes of a document; the document node comes first. -/
structure Document where
  nodes : Array Node
deriving DecidableEq

namespace Document

def root : NodeId := 0

/-- The document node alone. -/
def empty : Document := ⟨#[{ kind := .document }]⟩

instance : Inhabited Document := ⟨empty⟩

/-- The number of nodes, the document node included. -/
def size (t : Document) : Nat := t.nodes.size

/-- The node at a place, if the place is taken. -/
def get? (t : Document) (id : NodeId) : Option Node := t.nodes[id]?

/-! ## 3. Growing a document -/

/-- A new node that is attached to nothing, with its place. -/
def alloc (t : Document) (kind : NodeKind) : Document × NodeId :=
  (⟨t.nodes.push { kind }⟩, t.nodes.size)

/-- Makes `child` the last child of `parent` and links it to the child that was last before. -/
def append (t : Document) (parent child : NodeId) : Document :=
  let last := (t.nodes[parent]?).bind fun n => n.children.back?
  let nodes := t.nodes.modify parent fun n => { n with children := n.children.push child }
  let nodes := nodes.modify child fun n => { n with parent := some parent }
  match last with
  | none => ⟨nodes⟩
  | some sibling =>
    let nodes := nodes.modify sibling fun n => { n with next := some child }
    ⟨nodes.modify child fun n => { n with prev := some sibling }⟩

/-- A new node as the last child of `parent`, with its place. -/
def add (t : Document) (parent : NodeId) (kind : NodeKind) : Document × NodeId :=
  let (t, id) := t.alloc kind
  (t.append parent id, id)

/-! ## 4. Links -/

def parent (t : Document) (id : NodeId) : Option NodeId := (t.get? id).bind Node.parent

def next (t : Document) (id : NodeId) : Option NodeId := (t.get? id).bind Node.next

def prev (t : Document) (id : NodeId) : Option NodeId := (t.get? id).bind Node.prev

/-- The children in order; a place that is not taken has none. -/
def children (t : Document) (id : NodeId) : List NodeId :=
  ((t.get? id).map fun n => n.children.toList).getD []

/-- The element at a place, if there is one. -/
def element? (t : Document) (id : NodeId) : Option Element :=
  (t.get? id).bind fun n => match n.kind with
    | .element e => some e
    | _ => none

def isElement (t : Document) (id : NodeId) : Bool := (t.element? id).isSome

def text? (t : Document) (id : NodeId) : Option String :=
  (t.get? id).bind fun n => match n.kind with
    | .text data => some data
    | _ => none

def parentElement (t : Document) (id : NodeId) : Option NodeId :=
  (t.parent id).filter t.isElement

def elementChildren (t : Document) (id : NodeId) : List NodeId :=
  (t.children id).filter t.isElement

end Document

end UniqueSelector
