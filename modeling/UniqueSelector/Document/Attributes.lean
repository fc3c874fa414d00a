import UniqueSelector.Text.Ascii

/-!
# Attributes — the ordered dictionary on an element

An element carries name and value pairs. A name occurs once, at the place where it first appeared; a
later value for it replaces the earlier one there.
-/

namespace UniqueSelector

structure Attribute where
  name : String
  value : String
deriving DecidableEq

/-- The attributes of one element, in the order in which their names first appeared. -/
structure Attributes where
  entries : List Attribute := []
deriving DecidableEq

namespace Attributes

def empty : Attributes := {}

/-- Puts `value` at `name`: the value that stood there before, and the new list. -/
def insertInto (name value : String) : List Attribute → Option String × List Attribute
  | [] => (none, [⟨name, value⟩])
  | a :: as =>
    if a.name = name then (some a.value, ⟨name, value⟩ :: as)
    else
      let (previous, as) := insertInto name value as
      (previous, a :: as)

/-- Sets `name` to `value` and returns the previous value. -/
def insert (attrs : Attributes) (name value : String) : Option String × Attributes :=
  let (previous, entries) := insertInto name value attrs.entries
  (previous, ⟨entries⟩)

/-- Sets the pairs one after another. -/
def ofList (pairs : List Attribute) : Attributes :=
  pairs.foldl (fun attrs a => (attrs.insert a.name a.value).2) empty

def get? (attrs : Attributes) (name : String) : Option String :=
  (attrs.entries.find? (·.name = name)).map Attribute.value

def contains (attrs : Attributes) (name : String) : Bool :=
  attrs.entries.any (·.name = name)

def size (attrs : Attributes) : Nat := attrs.entries.length

def isEmpty (attrs : Attributes) : Bool := attrs.entries.isEmpty

end Attributes

end UniqueSelector
