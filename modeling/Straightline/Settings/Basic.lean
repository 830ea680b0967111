import Straightline.Event
import Straightline.Numeral.Integer
import Straightline.Text.Quoted

/-!
# Settings

What a run of the command can be told: the number of rounds, the number of slots, whether to show
statistics, and how much to log. Defaults come from the environment.
-/

set_option autoImplicit false

namespace Straightline

/-- The settings of a run. -/
structure Settings where
  rounds : Int := 5
  slots : Int := 32
  statistics : Bool := false
  logLevel : String := "warn"
deriving DecidableEq, Repr

/-- A setting that is out of range. -/
inductive OutOfRange where
  | rounds
  | slots
deriving DecidableEq, Repr

namespace OutOfRange

/-- The name of the setting in a configuration file. -/
def key : OutOfRange → String
  | rounds => "rounds"
  | slots => "memory_slots"

/-- The range that was missed. -/
def reason : OutOfRange → String
  | rounds => "must be at least 1"
  | slots => "must not be negative"

/-- The wording of the failure. -/
def message (e : OutOfRange) : String := "invalid configuration " ++ e.key ++ ": " ++ e.reason

end OutOfRange

/-- Checks the ranges, that of the rounds first. -/
def Settings.check (s : Settings) : Except OutOfRange Unit :=
  if s.rounds < 1 then .error .rounds
  else if s.slots < 0 then .error .slots
  else .ok ()

/-! ## The environment -/

namespace Environment

/-- A variable that cannot be used. -/
inductive Refusal where
  | invalid (name : String)
  | tooSmall (name : String)
deriving DecidableEq, Repr

/-- The wording of a refusal. -/
def Refusal.message : Refusal → String
  | invalid v => "ssaopt: invalid value for " ++ v
  | tooSmall v => "ssaopt: value too small for " ++ v

/-- The value of a variable, or the default if it is empty. The number is unsigned when it is
read and signed when it is used. -/
def readInt (name text : String) (default least : Int) : Except Refusal Int :=
  if text = "" then .ok default
  else
    match Numeral.readUnsigned64 text.toList with
    | .error _ => .error (.invalid name)
    | .ok n =>
      let n := (n : Int).bmod UInt64.size
      if n < least then .error (.tooSmall name) else .ok n

/-- The variable with the default number of rounds. -/
def roundsVariable : String := "SSAOPT_ROUNDS"

/-- The variable with the default number of slots. -/
def slotsVariable : String := "SSAOPT_MEMORY_SLOTS"

/-- The default settings in an environment. Variables that are not set are empty. -/
def defaults (env : String → String) : Except Refusal Settings :=
  match readInt roundsVariable (env roundsVariable) 5 1 with
  | .error e => .error e
  | .ok rounds =>
    match readInt slotsVariable (env slotsVariable) 32 0 with
    | .error e => .error e
    | .ok slots => .ok { rounds, slots }

end Environment

/-! ## Log levels -/

namespace Severity

/-- The lower-case form of a character as far as the names of severities are concerned: besides the
letters of ASCII, the dotted capital I and the Kelvin sign become ASCII letters. -/
def lowerChar (c : Char) : Char :=
  if c = '\u0130' then 'i' else if c = '\u212a' then 'k' else Numeral.lower c

/-- The severity with a given name, in any case; no name means `info`. -/
def ofName? (name : String) : Option Severity :=
  let lowered := String.ofList (name.toList.map lowerChar)
  if lowered = "" then some info else all.find? (·.name = lowered)

/-- The least severity to log, from its name. -/
def ofLevel (level : String) : Except String Severity :=
  match ofName? level with
  | some s => .ok s
  | none =>
    .error ("invalid log level " ++ Text.quoteString level ++ ": unrecognized level: "
      ++ Text.quoteString level)

end Severity

end Straightline
