import UniqueSelector.Document.Traversal

/-!
# Outline — a document printed as an indented list

One line for each node, two spaces for each generation. An attribute with an empty value shows its
name alone; a text shows its line feeds and spaces as visible signs.
-/

namespace UniqueSelector

/-- The attribute as it stands in a tag of the outline. -/
def Attribute.outline (a : Attribute) : String :=
  if a.value.isEmpty then a.name else a.name ++ "=\"" ++ a.value ++ "\""

/-- A character of a text as the outline shows it. -/
def outlineChar (c : Char) : List Char :=
  if c == '\n' then ['\\', 'n'] else if c == ' ' then ['·'] else [c]

/-- The line of one node, without indentation. -/
def NodeKind.outline : NodeKind → String
  | .document => "Document"
  | .element e => "<" ++ " ".intercalate (e.tag :: e.attrs.entries.map Attribute.outline) ++ ">"
  | .text data => "\"" ++ String.ofList (data.toList.flatMap outlineChar) ++ "\""
  | .comment data => "<!-- " ++ data ++ " -->"

namespace Document

/-- The lines of the node `id` and of what lies below it, in at most `depth` generations. -/
def outlineLines (t : Document) : (depth : Nat) → (indent : Nat) → (id : NodeId) → List String
  | 0, _, _ => []
  | depth + 1, indent, id =>
    match t.get? id with
    | none => []
    | some node =>
      (String.join (List.replicate indent "  ") ++ node.kind.outline) ::
        node.children.toList.flatMap (outlineLines t depth (indent + 1))

/-- The outline of the node `id`, each line ended by a line feed; empty for a place that is
not taken. -/
def outline (t : Document) (id : NodeId) (indent : Nat) : String :=
  String.join ((t.outlineLines (t.size + 1) indent id).map (· ++ "\n"))

end Document

end UniqueSelector
