import Straightline.Event
import Straightline.Text.Quoted

/-!
# Log lines

An event is logged on one line: its severity, its message and its fields, divided by tabs. The
fields look like an object of JSON with a space after every colon and comma.
-/

set_option autoImplicit false

namespace Straightline.Command

/-- A character inside a quoted field. -/
def fieldChar (c : Char) : String :=
  if c = '"' then "\\\""
  else if c = '\\' then "\\\\"
  else if c = '\n' then "\\n"
  else if c = '\r' then "\\r"
  else if c = '\t' then "\\t"
  else if c.toNat < 0x20 then "\\u" ++ Text.hex 4 c.toNat
  else String.singleton c

/-- A quoted field or field name. -/
def quotedField (s : String) : String := "\"" ++ String.join (s.toList.map fieldChar) ++ "\""

/-- The value of a field. -/
def fieldText : FieldValue → String
  | .text s => quotedField s
  | .number n => Int.repr n

/-- One line of the log. -/
def logLine (severity : Severity) (message : String) (fields : List (String × FieldValue)) :
    String :=
  let fieldTexts := fields.map fun (name, v) => quotedField name ++ ": " ++ fieldText v
  severity.label ++ "\t" ++ message ++ "\t\x7b" ++ ", ".intercalate fieldTexts ++ "\x7d\n"

/-- The log of some events, from the least severity on. -/
def logText (least : Severity) (events : List Event) : String :=
  String.join ((events.filter fun e => Severity.isEnabled least e.severity).map fun e =>
    logLine e.severity e.message e.fields)

end Straightline.Command
