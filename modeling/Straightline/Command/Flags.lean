import Straightline.Settings.Basic

/-!
# Command-line flags

Flags come before the positional arguments, with one or two hyphens, and end at `--` or at the first
argument that is no flag. A value follows after `=` or as the next argument; a switch needs none and
takes one only after `=`. The last setting of a flag counts.
-/

set_option autoImplicit false

namespace Straightline.Command

/-- What the flags say; a flag that is not given says nothing. -/
structure Flags where
  config : String := ""
  rounds : Option Int := none
  slots : Option Int := none
  statistics : Option Bool := none
  logLevel : Option String := none
deriving DecidableEq, Repr

/-- What is wrong with the flags. -/
inductive FlagError where
  | badForm (argument : String)
  | undefined (name : String)
  | missingValue (name : String)
  | badInteger (value name : String) (e : Numeral.IntegerError)
  | badSwitch (value name : String)
deriving DecidableEq, Repr

/-- The wording of a flag error. -/
def FlagError.message : FlagError → String
  | badForm argument => "bad flag syntax: " ++ argument
  | undefined name => "flag provided but not defined: -" ++ name
  | missingValue name => "flag needs an argument: -" ++ name
  | badInteger value name e =>
    "invalid value " ++ Text.quoteString value ++ " for flag -" ++ name ++ ": " ++ e.message
  | badSwitch value name =>
    "invalid boolean value " ++ Text.quoteString value ++ " for -" ++ name ++ ": parse error"

/-- The outcome of reading the arguments. -/
inductive Parsed where
  | run (flags : Flags) (positional : List String)
  | help
  | refused (e : FlagError)
deriving DecidableEq, Repr

/-- The spellings of truth values. -/
def readSwitch (value : String) : Option Bool :=
  if ["1", "t", "T", "TRUE", "true", "True"].contains value then some true
  else if ["0", "f", "F", "FALSE", "false", "False"].contains value then some false
  else none

/-- How an argument is to be understood. -/
inductive Argument where
  /-- Not a flag: the positional arguments begin here. -/
  | positional
  /-- The end of the flags. -/
  | terminator
  /-- Hyphens without a proper name. -/
  | badForm
  | flag (name : String) (value : Option String)
deriving DecidableEq, Repr

/-- Splits a flag's name from its value at the first equals sign. -/
def splitValue (body : List Char) : Argument :=
  match body.span (· ≠ '=') with
  | (name, '=' :: value) => .flag (String.ofList name) (some (String.ofList value))
  | (name, _) => .flag (String.ofList name) none

/-- The part of a flag after its hyphens. -/
def classifyBody (body : List Char) : Argument :=
  match body with
  | [] => .badForm
  | c :: _ => if c = '-' || c = '=' then .badForm else splitValue body

/-- What an argument is by its form. -/
def classify (argument : String) : Argument :=
  match argument.toList with
  | ['-', '-'] => .terminator
  | '-' :: '-' :: body => classifyBody body
  | '-' :: c :: rest => classifyBody (c :: rest)
  | _ => .positional

/-- Sets an integer flag. -/
def readIntegerFlag (name value : String) : Except FlagError Int :=
  match Numeral.readSigned64 value.toList with
  | .ok n => .ok n
  | .error e => .error (.badInteger value name e)

/-- Sets a flag that takes a value; nothing if there is no flag of that name. -/
def Flags.set (f : Flags) (name value : String) : Except FlagError Flags :=
  if name = "config" then .ok { f with config := value }
  else if name = "log-level" then .ok { f with logLevel := some value }
  else if name = "rounds" then (readIntegerFlag name value).map fun n => { f with rounds := some n }
  else if name = "slots" then (readIntegerFlag name value).map fun n => { f with slots := some n }
  else .error (.undefined name)

/-- The flags that take a value. -/
def takesValue (name : String) : Bool := ["config", "log-level", "rounds", "slots"].contains name

/-- Reads the arguments. -/
def parseArguments (f : Flags) : List String → Parsed
  | [] => .run f []
  | argument :: rest =>
    match classify argument with
    | .positional => .run f (argument :: rest)
    | .terminator => .run f rest
    | .badForm => .refused (.badForm argument)
    | .flag name value =>
      if name = "stats" then
        match readSwitch (value.getD "true") with
        | some b => parseArguments { f with statistics := some b } rest
        | none => .refused (.badSwitch (value.getD "true") name)
      else if takesValue name then
        match value with
        | some v =>
          match f.set name v with
          | .ok f => parseArguments f rest
          | .error e => .refused e
        | none =>
          match rest with
          | [] => .refused (.missingValue name)
          | v :: rest =>
            match f.set name v with
            | .ok f => parseArguments f rest
            | .error e => .refused e
      else if name = "help" || name = "h" then .help
      else .refused (.undefined name)

/-- The settings with the given flags in place. -/
def Flags.applyTo (f : Flags) (s : Settings) : Settings where
  rounds := f.rounds.getD s.rounds
  slots := f.slots.getD s.slots
  statistics := f.statistics.getD s.statistics
  logLevel := f.logLevel.getD s.logLevel

/-- The default of a numeric flag, as the usage text shows it: zero is not shown. -/
def defaultText (n : Int) : String := if n = 0 then "" else " (default " ++ Int.repr n ++ ")"

/-- The usage text, with the defaults of the environment. -/
def usage (s : Settings) : String :=
  "Usage: ssaopt [options] <program.ssa>\n"
    ++ "\n"
    ++ "Options:\n"
    ++ "  -config string\n"
    ++ "    \tTOML configuration file\n"
    ++ "  -log-level string\n"
    ++ "    \tlog level (debug, info, warn, error) (default \"warn\")\n"
    ++ "  -rounds int\n"
    ++ "    \toptimization rounds before and after lowering" ++ defaultText s.rounds ++ "\n"
    ++ "  -slots int\n"
    ++ "    \tnamed value slots available for lifted literals" ++ defaultText s.slots ++ "\n"
    ++ "  -stats\n"
    ++ "    \tprint pass statistics to stderr\n"

end Straightline.Command
