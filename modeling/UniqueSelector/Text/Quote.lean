/-!
# Quote — the two quotation marks

Markup and selectors put strings between double or single quotation marks.
-/

namespace UniqueSelector

inductive Quote where
  | single
  | double
deriving DecidableEq

def Quote.char : Quote → Char
  | .single => '\''
  | .double => '"'

end UniqueSelector
