import UniqueSelector.Proofs.Formulas

/-!
# Printing — selectors as text

Names and values are escaped, formulas are written out, and descendants are told by two blanks. What
can be printed is what the reader can come back to: the names can be written, the formulas fit into
32 bits, and the star or a type stands at the front of its compound.
-/

namespace UniqueSelector

namespace Selector

/-! ## 1. Texts -/

def AttributeTest.print : AttributeTest → String
  | .present name => "[" ++ escapeName name ++ "]"
  | .compare name op value =>
    "[" ++ escapeName name ++ op.symbol ++ "\"" ++ escape (.string .double) value ++ "\"" ++ "]"

namespace Pseudo

def name : Pseudo → String
  | root => "root"
  | empty => "empty"
  | nthChild _ => "nth-child"
  | nthLastChild _ => "nth-last-child"
  | firstChild => "first-child"
  | lastChild => "last-child"
  | onlyChild => "only-child"
  | firstOfType => "first-of-type"
  | lastOfType => "last-of-type"

/-- The formula of a pseudo-class that counts. -/
def nth? : Pseudo → Option Nth
  | nthChild nth | nthLastChild nth => some nth
  | _ => none

/-- The argument in its parentheses, if there is one. -/
def argument (p : Pseudo) : String := p.nth?.elim "" fun nth => "(" ++ nth.print ++ ")"

def print (p : Pseudo) : String := ":" ++ p.name ++ p.argument

end Pseudo

def Simple.print : Simple → String
  | .type name => escapeName name
  | .class name => "." ++ escapeName name
  | .id name => "#" ++ escapeName name
  | .universal => "*"
  -- It stands for many texts, and has none of its own.
  | .never => ""
  | .attribute test => test.print
  | .pseudo p => p.print

theorem Simple.toList_print_class (name : String) :
    (print (.class name)).toList = '.' :: (escapeName name).toList := by
  have hsign : ".".toList = ['.'] := by decide
  rw [print, String.toList_append, hsign, List.singleton_append]

theorem Simple.toList_print_id (name : String) :
    (print (.id name)).toList = '#' :: (escapeName name).toList := by
  have hsign : "#".toList = ['#'] := by decide
  rw [print, String.toList_append, hsign, List.singleton_append]

theorem Simple.toList_print_universal : (print .universal).toList = ['*'] := by decide

def Compound.print (c : Compound) : String := String.join (c.map Simple.print)

def Combinator.print : Combinator → String
  | .descendant => "  "
  | .child => " > "
  | .nextSibling => " + "
  | .subsequentSibling => " ~ "

/-- The outermost compound comes first, and the subject comes last. -/
def Complex.print (s : Complex) : String :=
  s.chain.foldl (fun inner link => Compound.print link.2 ++ link.1.print ++ inner)
    (Compound.print s.subject)

def Selectors.print (l : Selectors) : String := ",".intercalate (l.map Complex.print)

/-! ## 2. What can be printed -/

/-- The name can be written, and all of it comes back. -/
def PrintableName (name : String) : Prop := Writable name ∧ '\x00' ∉ name.toList

instance (name : String) : Decidable (PrintableName name) := inferInstanceAs (Decidable (_ ∧ _))

def AttributeTest.Printable : AttributeTest → Prop
  | .present name => PrintableName name
  | .compare name _ value => PrintableName name ∧ '\x00' ∉ value.toList

instance : (test : AttributeTest) → Decidable test.Printable
  | .present name => inferInstanceAs (Decidable (PrintableName name))
  | .compare name _ value =>
    inferInstanceAs (Decidable (PrintableName name ∧ '\x00' ∉ value.toList))

def Pseudo.Printable (p : Pseudo) : Prop := ∀ nth ∈ p.nth?, IsInt32 nth.step ∧ IsInt32 nth.offset

instance (p : Pseudo) : Decidable p.Printable :=
  inferInstanceAs (Decidable (∀ nth ∈ p.nth?, IsInt32 nth.step ∧ IsInt32 nth.offset))

def Simple.Printable : Simple → Prop
  | .type name | .class name | .id name => PrintableName name
  | .universal => True
  | .never => False
  | .attribute test => test.Printable
  | .pseudo p => p.Printable

instance : (s : Simple) → Decidable s.Printable
  | .type name | .class name | .id name => inferInstanceAs (Decidable (PrintableName name))
  | .universal => isTrue trivial
  | .never => isFalse id
  | .attribute test => inferInstanceAs (Decidable test.Printable)
  | .pseudo p => inferInstanceAs (Decidable p.Printable)

/-- The condition can only stand at the front of a compound. -/
def Simple.IsHead : Simple → Prop
  | .type _ | .universal => True
  | _ => False

instance : (s : Simple) → Decidable s.IsHead
  | .type _ | .universal => isTrue trivial
  | .class _ | .id _ | .never | .attribute _ | .pseudo _ => isFalse id

structure Compound.Printable (c : Compound) : Prop where
  nonempty : c ≠ []
  simples : ∀ s ∈ c, s.Printable
  headed : ∀ s ∈ c.tail, ¬s.IsHead

instance (c : Compound) : Decidable (Compound.Printable c) :=
  decidable_of_iff (c ≠ [] ∧ (∀ s ∈ c, s.Printable) ∧ ∀ s ∈ c.tail, ¬s.IsHead)
    ⟨fun h => ⟨h.1, h.2.1, h.2.2⟩, fun h => ⟨h.nonempty, h.simples, h.headed⟩⟩

structure Complex.Printable (s : Complex) : Prop where
  subject : Compound.Printable s.subject
  chain : ∀ link ∈ s.chain, Compound.Printable link.2

instance (s : Complex) : Decidable s.Printable :=
  decidable_of_iff (Compound.Printable s.subject ∧ ∀ link ∈ s.chain, Compound.Printable link.2)
    ⟨fun h => ⟨h.1, h.2⟩, fun h => ⟨h.subject, h.chain⟩⟩

end Selector

end UniqueSelector
