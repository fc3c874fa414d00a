import UniqueSelector.Proofs.TagNames

/-!
# Spelling — how tokens are written down

Each token has one plain way to be written. What may come next depends on what stands in front: a
text runs up to the next tag, so no text follows a text, and some elements hold nothing but text,
which is written as it is and ends where the element does.
-/

namespace UniqueSelector.Markup

/-! ## 1. Tokens -/

/-- A character of a text; what would begin a tag or a reference is written by its name. -/
def escapeText (c : Char) : List Char :=
  if c = '&' then "&amp;".toList else if c = '<' then "&lt;".toList else [c]

/-- A character of a value between double quotes. -/
def escapeValue (c : Char) : List Char :=
  if c = '&' then "&amp;".toList else if c = '"' then "&quot;".toList else [c]

/-- The attribute with a blank in front. -/
def spellAttribute (a : Attribute) : List Char :=
  ' ' :: (a.name.toList ++ '=' :: '"' :: (a.value.toList.flatMap escapeValue ++ ['"']))

def Token.spell : Token → List Char
  | .doctype name => "<!DOCTYPE ".toList ++ (name.toList ++ ['>'])
  | .startTag name selfClosing attributes =>
    '<' :: (name.toList ++
      (attributes.flatMap spellAttribute ++ if selfClosing then ['/', '>'] else ['>']))
  | .endTag name => '<' :: '/' :: (name.toList ++ ['>'])
  | .comment data => "<!--".toList ++ (data.toList ++ "-->".toList)
  | .text data => data.toList.flatMap escapeText
  | .endOfFile => []

theorem Token.spell_endTag (name : String) (cs : List Char) :
    (endTag name).spell ++ cs = '<' :: '/' :: (name.toList ++ '>' :: cs) := by
  show '<' :: '/' :: (name.toList ++ ['>'] ++ cs) = _
  rw [List.append_assoc]
  rfl

theorem Token.spell_comment (data : String) (cs : List Char) :
    (comment data).spell ++ cs = "<!--".toList ++ (data.toList ++ ("-->".toList ++ cs)) := by
  show ("<!--".toList ++ (data.toList ++ "-->".toList)) ++ cs = _
  rw [List.append_assoc, List.append_assoc]

theorem Token.spell_doctype (name : String) (cs : List Char) :
    (doctype name).spell ++ cs = "<!DOCTYPE ".toList ++ (name.toList ++ '>' :: cs) := by
  show ("<!DOCTYPE ".toList ++ (name.toList ++ ['>'])) ++ cs = _
  rw [List.append_assoc, List.append_assoc]
  rfl

/-- Small letters and other characters, the first of them a letter. -/
def SpelledTagName (name : String) : Prop :=
  name.toList.head?.any Char.isLower = true ∧ TagName name

theorem SpelledTagName.exists_cons {name : String} (h : SpelledTagName name) :
    ∃ c cs, name.toList = c :: cs ∧ c.isAlpha = true := by
  obtain ⟨hletter, -⟩ := h
  cases hname : name.toList with
  | nil =>
    rw [hname] at hletter
    cases hletter
  | cons c cs =>
    rw [hname] at hletter
    have hlower : c.isLower = true := hletter
    exact ⟨c, cs, rfl, by rw [Char.isAlpha, hlower, Bool.or_true]⟩

def SpelledAttributeName (name : String) : Prop :=
  name ≠ "" ∧ ∀ c ∈ name.toList, (isTagChar c && c != '=') = true

/-- What can be written on its own. -/
def Token.Spellable : Token → Prop
  | .doctype name => ∀ c ∈ name.toList, (!isBlank c && c != '>' && !c.isUpper) = true
  | .startTag name _ attributes => SpelledTagName name ∧
      (∀ a ∈ attributes, SpelledAttributeName a.name) ∧ (attributes.map Attribute.name).Nodup
  | .endTag name => SpelledTagName name
  | .comment data => ¬"-->".toList <:+: data.toList
  | .text data => data ≠ ""
  | .endOfFile => False

instance (name : String) : Decidable (SpelledTagName name) := inferInstanceAs (Decidable (_ ∧ _))

instance (name : String) : Decidable (SpelledAttributeName name) :=
  @instDecidableAnd _ _ _ (List.decidableBAll _ _)

instance (t : Token) : Decidable t.Spellable :=
  match t with
  | .doctype name => List.decidableBAll _ name.toList
  | .startTag _ _ _ => inferInstanceAs (Decidable (_ ∧ _ ∧ _))
  | .endTag name => inferInstanceAs (Decidable (SpelledTagName name))
  | .comment _ => inferInstanceAs (Decidable (¬_))
  | .text _ => inferInstanceAs (Decidable (_ ≠ _))
  | .endOfFile => inferInstanceAs (Decidable False)

/-! ## 2. Rows of tokens -/

/-- What stands in front of the next token. -/
inductive Context where
  | free
  | afterText
  /-- The start tag of an element that holds nothing but text. -/
  | raw (name : String)
  /-- The text of such an element. -/
  | afterRaw (name : String)
deriving DecidableEq

/-- Whether the end tag of the element `name` begins here. -/
def beginsEndTag (name : String) : List Char → Bool
  | '<' :: '/' :: cs => (cs.take name.toList.length).map Char.toLower == name.toList &&
      (cs.drop name.toList.length).head?.any fun c => isBlank c || c == '/' || c == '>'
  | _ => false

namespace Token

def isText : Token → Bool
  | .text _ => true
  | _ => false

/-- What can come behind the start tag of the raw text element `name`: a text that does not end the
element, or its end tag. -/
def FitsRaw (name : String) : Token → Prop
  | .text data => data ≠ "" ∧ ∀ part ∈ data.toList.tails, beginsEndTag name part = false
  | .endTag other => other = name
  | .doctype _ | .startTag _ _ _ | .comment _ | .endOfFile => False

instance (name : String) (t : Token) : Decidable (t.FitsRaw name) :=
  match t with
  | .text _ => inferInstanceAs (Decidable (_ ≠ _ ∧ _))
  | .endTag _ => inferInstanceAs (Decidable (_ = _))
  | .doctype _ | .startTag _ _ _ | .comment _ | .endOfFile => inferInstanceAs (Decidable False)

end Token

namespace Context

/-- The context behind a token. -/
def next (k : Context) : Token → Context
  | .text _ =>
    match k with
    | raw name => afterRaw name
    | _ => afterText
  | .startTag name selfClosing _ =>
    if !selfClosing && rawTextElements.contains name then raw name else free
  | _ => free

/-- Whether a token can come next. -/
def Allows (k : Context) (t : Token) : Prop :=
  match k with
  | free => t.Spellable
  | afterText => t.Spellable ∧ t.isText = false
  | raw name => t.FitsRaw name
  | afterRaw name => t = .endTag name

instance (k : Context) (t : Token) : Decidable (k.Allows t) :=
  match k with
  | free => inferInstanceAs (Decidable t.Spellable)
  | afterText => inferInstanceAs (Decidable (_ ∧ _))
  | raw name => inferInstanceAs (Decidable (t.FitsRaw name))
  | afterRaw _ => inferInstanceAs (Decidable (_ = _))

/-- Whether the row can be over. -/
def Closed : Context → Prop
  | free | afterText => True
  | raw _ | afterRaw _ => False

instance (k : Context) : Decidable k.Closed :=
  match k with
  | free | afterText => inferInstanceAs (Decidable True)
  | raw _ | afterRaw _ => inferInstanceAs (Decidable False)

/-- The token as it is written here. -/
def spell : Context → Token → List Char
  | raw _, .text data => data.toList
  | _, t => t.spell

/-- Each token can come where it stands. -/
def AllowsAll (k : Context) : List Token → Prop
  | [] => k.Closed
  | t :: ts => k.Allows t ∧ (k.next t).AllowsAll ts

instance decidableAllowsAll (k : Context) (ts : List Token) : Decidable (k.AllowsAll ts) :=
  match ts with
  | [] => inferInstanceAs (Decidable k.Closed)
  | t :: ts => @instDecidableAnd _ _ _ ((k.next t).decidableAllowsAll ts)

def spellAll (k : Context) : List Token → List Char
  | [] => []
  | t :: ts => k.spell t ++ (k.next t).spellAll ts

end Context

/-- A row of tokens that can be written down. -/
def Canonical (ts : List Token) : Prop := Context.free.AllowsAll ts

instance (ts : List Token) : Decidable (Canonical ts) :=
  inferInstanceAs (Decidable (Context.free.AllowsAll ts))

def spell (ts : List Token) : String := String.ofList (Context.free.spellAll ts)

end UniqueSelector.Markup
