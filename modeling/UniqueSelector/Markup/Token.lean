import UniqueSelector.Document.Attributes
import UniqueSelector.Warning

/-!
# Token — the pieces of markup

Markup is a row of declarations, tags, comments and texts, ended by one mark. Reading it never
fails; what looks wrong is remarked on and read in some fixed way.
-/

namespace UniqueSelector.Markup

/-- One piece of markup. Character references in texts and values are resolved. -/
inductive Token where
  | doctype (name : String)
  | startTag (name : String) (selfClosing : Bool) (attributes : List Attribute)
  | endTag (name : String)
  | comment (data : String)
  | text (data : String)
  | endOfFile
deriving DecidableEq

/-- Something in the markup that is accepted but looks wrong. -/
inductive Remark where
  /-- A comment runs into the end of the input. -/
  | unterminatedComment
  /-- A reference is closed by a semicolon but its name is not known. -/
  | unknownReference (name : String)
  /-- A tag runs into the end of the input; `state` says where in the tag. -/
  | unfinishedTag (state : String)
  /-- An end tag has no open element to close. -/
  | unmatchedEndTag (name : String)
deriving DecidableEq

def Remark.warning (r : Remark) : Warning where
  component := "HTML"
  message := match r with
    | .unterminatedComment => "unterminated comment at end of input"
    | .unknownReference name => "unknown character reference '&" ++ name ++ ";'"
    | .unfinishedTag state => "end of input inside a tag (" ++ state ++ " state)"
    | .unmatchedEndTag name => "ignoring unmatched end tag </" ++ name ++ ">"

end UniqueSelector.Markup
