import Straightline.Settings.Basic
import Straightline.Toml.Moment
import Straightline.Toml.Parser
import Straightline.Toml.Registry

/-!
# Configuration files

A configuration file overrides some of the settings. Its keys match the names of settings in any
case. The expressions of a document are taken into account one after the other, and the first one
that is wrong decides:

* defining a key twice or giving a setting a value of the wrong type is refused as malformed;
* keys below a setting are refused as unknown;
* tables below a setting, and dates and times as values, are faults.

If no expression is wrong, a document that is malformed further on is refused as such; otherwise one
with keys or tables that are no settings is refused for that. Only then are the ranges checked.

A header that names no setting begins a part of the document that is skipped, up to the next
header: it need not even have distinct keys.
-/

set_option autoImplicit false

namespace Straightline

/-- The settings that a file can change. -/
inductive Setting where
  | rounds
  | slots
  | statistics
  | logLevel
deriving DecidableEq, Repr

/-- What stops the reading of a file for good. -/
inductive FileFault where
  /-- A header names a table below a setting. -/
  | tableBelow (setting : Setting)
  /-- A date or a time is the value of a setting. -/
  | moment (kind : Toml.Moment) (setting : Setting)
deriving DecidableEq, Repr

/-- Why a configuration file is refused. -/
inductive FileError where
  | malformed
  | unknownKey
  | fault (f : FileFault)
deriving DecidableEq, Repr

namespace Setting

/-- The name of the type of a setting's values. -/
def typeName : Setting → String
  | rounds => "int"
  | slots => "int"
  | statistics => "bool"
  | logLevel => "string"

/-- The setting with a given name, in any case. -/
def ofName? (name : String) : Option Setting :=
  let lowered := String.ofList (name.toList.map Numeral.lower)
  if lowered = "rounds" then some rounds
  else if lowered = "memory_slots" then some slots
  else if lowered = "stats" then some statistics
  else if lowered = "log_level" then some logLevel
  else none

/-- No two underscores stand side by side. -/
def noAdjacentUnderscores : List Char → Bool
  | '_' :: '_' :: _ => false
  | _ :: rest => noAdjacentUnderscores rest
  | [] => true

/-- Whether underscores stand only between two characters of a number. -/
def underscoresInside (cs : List Char) : Bool :=
  cs.head? ≠ some '_' && cs.getLast? ≠ some '_' && noAdjacentUnderscores cs

/-- A number in some base without sign, if it is below a limit. -/
def readBelow (limit base : Nat) (digits : List Char) : Option Nat :=
  if digits.isEmpty || !digits.all (Numeral.isDigitIn base) then none
  else
    let n := Numeral.digitsValue base digits
    if n < limit then some n else none

/-- An integer of a document: decimal with an optional sign and no leading zero, or unsigned in
another base. Both kinds must fit 64 bits. -/
def readInteger (token : List Char) : Option Int :=
  match token with
  | '0' :: mark :: c :: rest =>
    let base := if mark = 'x' then 16 else if mark = 'o' then 8 else if mark = 'b' then 2 else 0
    let places := c :: rest
    if base = 0 || !underscoresInside places then none
    else
      (readBelow 0x8000000000000000 base (places.filter (· ≠ '_'))).map fun (n : Nat) => (n : Int)
  | _ =>
    let (negative, places) := match token with
      | '+' :: rest => (false, rest)
      | '-' :: rest => (true, rest)
      | _ => (false, token)
    let digits := places.filter (· ≠ '_')
    if !underscoresInside places || (digits.head? = some '0' && 1 < digits.length) then none
    else if negative then (readBelow 0x8000000000000001 10 digits).map fun (n : Nat) => -(n : Int)
    else (readBelow 0x8000000000000000 10 digits).map fun (n : Nat) => (n : Int)

/-- The settings with a new value for one of them, if the value is of the right type. -/
def assign? (setting : Setting) (s : Settings) (v : Toml.Value) : Option Settings :=
  match setting, v with
  | rounds, .integer token => (readInteger token).map fun n => { s with rounds := n }
  | slots, .integer token => (readInteger token).map fun n => { s with slots := n }
  | statistics, .bool b => some { s with statistics := b }
  | logLevel, .text t => some { s with logLevel := t }
  | _, _ => none

/-- The fault of a value, if it is a date or a time. -/
def fault? (setting : Setting) : Toml.Value → Option FileFault
  | .moment token => (Toml.Moment.read? token).map (.moment · setting)
  | _ => none

/-- Gives a setting a value. -/
def assign (setting : Setting) (s : Settings) (v : Toml.Value) : Except FileError Settings :=
  match setting.assign? s v, setting.fault? v with
  | some s, _ => .ok s
  | none, some f => .error (.fault f)
  | none, none => .error .malformed

end Setting

/-- The name of the type of a date or a time. -/
def momentTypeName : Toml.Moment → String
  | .offsetDateTime => "time.Time"
  | .localDateTime => "toml.LocalDateTime"
  | .localDate => "toml.LocalDate"
  | .localTime => "toml.LocalTime"

/-- The wording of a fault. -/
def FileFault.message : FileFault → String
  | tableBelow setting => "unhandled part: " ++ setting.typeName
  | moment kind setting =>
    "reflect.Set: value of type " ++ momentTypeName kind ++ " is not assignable to type "
      ++ setting.typeName

/-- Where the keys of a document currently go. -/
inductive Section where
  /-- The settings themselves. -/
  | settings
  /-- A header named a setting, which has no keys of its own. -/
  | setting
  /-- A header named no setting. -/
  | skipped
deriving DecidableEq, Repr

/-- How far a document has been read. -/
structure FileState where
  settings : Settings
  registry : Toml.Registry := {}
  part : Section := .settings
  sawUnknown : Bool := false
deriving DecidableEq, Repr

namespace FileState

/-- A header: it names a setting, or begins a skipped part. -/
def header (f : FileState) (key : Toml.Key) (isArray : Bool) : Except FileError FileState :=
  match key with
  | [] => .error .malformed
  | name :: rest =>
    match Setting.ofName? name with
    | none => .ok { f with part := .skipped, sawUnknown := true }
    | some setting =>
      if !rest.isEmpty then .error (.fault (.tableBelow setting))
      else if isArray then .error .malformed
      else .ok { f with part := .setting }

/-- A key and its value in the part of the document where settings stand. -/
def keyValue (f : FileState) (key : Toml.Key) (v : Toml.Value) : Except FileError FileState :=
  match key with
  | [] => .error .malformed
  | name :: rest =>
    match Setting.ofName? name with
    | none => .ok { f with sawUnknown := true }
    | some setting =>
      if !rest.isEmpty then .error .unknownKey
      else (setting.assign f.settings v).map fun s => { f with settings := s }

/-- Takes an expression into account that defines nothing twice. -/
def accept (f : FileState) (e : Toml.Expression) : Except FileError FileState :=
  match e, f.part with
  | .keyValue k v, .settings => f.keyValue k v
  | .keyValue _ _, .setting => .error .unknownKey
  | .keyValue _ _, .skipped => .ok f
  | .table k, _ => f.header k false
  | .arrayTable k, _ => f.header k true

/-- Takes one expression into account. Skipped keys are not even registered. -/
def step (f : FileState) (e : Toml.Expression) : Except FileError FileState :=
  match e, f.part with
  | .keyValue _ _, .skipped => .ok f
  | _, _ =>
    match f.registry.register e with
    | none => .error .malformed
    | some registry => { f with registry }.accept e

/-- Takes the expressions of a document into account, in order. -/
def run (f : FileState) : List Toml.Expression → Except FileError FileState
  | [] => .ok f
  | e :: es =>
    match f.step e with
    | .error e => .error e
    | .ok f => f.run es

end FileState

/-- The settings with those of a document in place. -/
def Settings.override (s : Settings) (text : String) : Except FileError Settings :=
  let document := Toml.parse text
  match FileState.run { settings := s } document.expressions with
  | .error e => .error e
  | .ok f =>
    if !document.complete then .error .malformed
    else if f.sawUnknown then .error .unknownKey
    else .ok f.settings

end Straightline
