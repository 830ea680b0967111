import Straightline.Value

/-!
# Events

What the passes and the reader report while they work, as data. An event has a severity, a message
and a list of named fields; how a line of a log is laid out is decided where logs are written.
-/

set_option autoImplicit false

namespace Straightline

/-- How grave an event is, the least grave first. -/
inductive Severity where
  | debug | info | warn | error | dpanic | panic | fatal
deriving DecidableEq, Repr

namespace Severity

/-- All severities in ascending order. -/
def all : List Severity := [debug, info, warn, error, dpanic, panic, fatal]

/-- The position among the severities. -/
def rank : Severity → Nat
  | debug => 0
  | info => 1
  | warn => 2
  | error => 3
  | dpanic => 4
  | panic => 5
  | fatal => 6

/-- The lower-case name. -/
def name : Severity → String
  | debug => "debug"
  | info => "info"
  | warn => "warn"
  | error => "error"
  | dpanic => "dpanic"
  | panic => "panic"
  | fatal => "fatal"

/-- The name as log lines show it. -/
def label : Severity → String
  | debug => "DEBUG"
  | info => "INFO"
  | warn => "WARN"
  | error => "ERROR"
  | dpanic => "DPANIC"
  | panic => "PANIC"
  | fatal => "FATAL"

/-- Whether events of severity `s` are logged when the least one logged is `least`. -/
def isEnabled (least s : Severity) : Bool := least.rank ≤ s.rank

end Severity

/-- The value of a field. -/
inductive FieldValue where
  | text (s : String)
  | number (n : Int)
deriving DecidableEq, Repr

/-- What happened. -/
inductive Event where
  /-- The reader met a second definition of a temporary. -/
  | redefined (name : String) (line : Nat) (previous : InstId)
  /-- A product was merged into its only consumer. -/
  | fused (dst op : String)
  /-- A product with one became a move. -/
  | unitProduct (dst : String)
  /-- A multiply-add with one became an addition. -/
  | unitProductSum (dst : String)
  /-- A division by a constant became a product. -/
  | inverted (dst : String) (divisor : Literal)
  /-- A temporary without consumers was removed. -/
  | removed (dst : String)
  /-- A producer took over the destination of the move that read it. -/
  | renamed (source target : String)
  /-- The consumers of a move now read its source. -/
  | forwarded (dst : String) (source : Value)
  /-- A repeated computation was merged into the first one. -/
  | merged (dst into : String)
  /-- A literal became a named constant. -/
  | lifted (literal : Literal)
  /-- A float literal is now built from immediates. -/
  | lowered (literal : Literal)
  /-- All rounds of an optimisation phase are done. -/
  | finished (phase : String) (rounds : Int)
deriving DecidableEq, Repr

namespace Event

/-- Only a redefined temporary deserves a warning. -/
def severity : Event → Severity
  | redefined .. => .warn
  | _ => .debug

/-- The message of an event. -/
def message : Event → String
  | redefined .. => "temporary redefined"
  | fused .. => "multiply-add fusion"
  | unitProduct .. => "multiplication by one"
  | unitProductSum .. => "multiply-add by one"
  | inverted .. => "division by constant"
  | removed .. => "dead code"
  | renamed .. => "move renaming"
  | forwarded .. => "move forwarding"
  | merged .. => "common sub-expression"
  | lifted .. => "literal lifted to memory"
  | lowered .. => "float literal lowered"
  | finished .. => "optimization finished"

/-- The fields of an event, in the order they are shown. -/
def fields : Event → List (String × FieldValue)
  | redefined name line previous =>
    [("name", .text name), ("line", .number line), ("previous", .text previous.text)]
  | fused dst op => [("dst", .text dst), ("op", .text op)]
  | unitProduct dst => [("dst", .text dst)]
  | unitProductSum dst => [("dst", .text dst)]
  | inverted dst divisor => [("dst", .text dst), ("divisor", .text divisor.text)]
  | removed dst => [("dst", .text dst)]
  | renamed source target => [("from", .text source), ("to", .text target)]
  | forwarded dst source => [("dst", .text dst), ("src", .text source.text)]
  | merged dst into => [("dst", .text dst), ("into", .text into)]
  | lifted literal => [("literal", .text literal.text), ("cost", .number literal.cost)]
  | lowered literal => [("literal", .text literal.text)]
  | finished phase rounds => [("phase", .text phase), ("rounds", .number rounds)]

end Event

end Straightline
