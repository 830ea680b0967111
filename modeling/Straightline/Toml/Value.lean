/-!
# Configuration documents

The parts of a TOML document: values, and the three kinds of expressions that a document is a
sequence of. Numbers and moments keep the text they were written as, since only the reader of a
setting knows what it should mean.
-/

set_option autoImplicit false

namespace Straightline.Toml

/-- A dotted key, part by part. -/
abbrev Key := List String

/-- A value as it is written. -/
inductive Value where
  | text (s : String)
  | integer (token : List Char)
  | float (token : List Char)
  | bool (b : Bool)
  | moment (token : List Char)
  | array (items : List Value)
  | table (entries : List (Key × Value))
deriving Repr

/-- One line of a document, except that values may span several. -/
inductive Expression where
  | keyValue (key : Key) (value : Value)
  | table (key : Key)
  | arrayTable (key : Key)
deriving Repr

/-- A document as far as it could be read. -/
structure Document where
  expressions : List Expression := []
  /-- Nothing malformed follows the expressions. -/
  complete : Bool := true
deriving Repr

end Straightline.Toml
