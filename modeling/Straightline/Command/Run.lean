import Straightline.Command.Flags
import Straightline.Command.Log
import Straightline.Compile
import Straightline.Settings.File

/-!
# The command

`run` is the whole command as a function of its arguments, the environment and the files it may
open. Settings come from the environment, then the configuration file, then the flags; the file's
settings must be in range by themselves. The compiled program goes to the output; log lines and
statistics go to the error stream.
-/

set_option autoImplicit false

namespace Straightline.Command

/-- What a run of the command leaves behind. -/
structure Result where
  exit : UInt32
  stdout : String := ""
  stderr : String := ""
deriving DecidableEq, Repr

/-- Why the settings of a run could not be put together. -/
inductive ConfigFailure where
  | unopened (path : String) (why : OpenFailure)
  | directory (path : String)
  | refused (path : String)
  | fault (f : FileFault)
  | outOfRange (e : OutOfRange)
deriving DecidableEq, Repr

/-- The wording of such a failure. What is wrong inside a file is not told. -/
def ConfigFailure.message : ConfigFailure → String
  | unopened path why => "open config: open " ++ path ++ ": " ++ why.text
  | directory path => "config " ++ path ++ ": toml: read " ++ path ++ ": is a directory"
  | refused path => "config " ++ path ++ ": ..."
  | fault f => f.message
  | outOfRange e => e.message

/-- The settings with those of a configuration file in place. -/
def loadFile (s : Settings) (path : String) : Origin → Except ConfigFailure Settings
  | .unopened why => .error (.unopened path why)
  | .directory => .error (.directory path)
  | .file content =>
    match (String.fromUTF8? ⟨content.toArray⟩).map s.override with
    | some (.ok s) =>
      match s.check with
      | .ok () => .ok s
      | .error e => .error (.outOfRange e)
    | some (.error (.fault f)) => .error (.fault f)
    | _ => .error (.refused path)

/-- The settings of a run: defaults, file, flags. -/
def settings (defaults : Settings) (flags : Flags) (open_ : String → Origin) :
    Except ConfigFailure Settings := do
  let s ← if flags.config = "" then pure defaults
    else loadFile defaults flags.config (open_ flags.config)
  let s := flags.applyTo s
  match s.check with
  | .ok () => pure s
  | .error e => throw (.outOfRange e)

/-- A failure that ends the command. -/
def fail (log message : String) : Result :=
  { exit := 1, stderr := log ++ "ssaopt: " ++ message ++ "\n" }

/-- A fault, which ends the command on the spot. -/
def crash (message : String) : Result := { exit := 2, stderr := "panic: " ++ message ++ "\n" }

/-- Compiles one file. -/
def compileOne (s : Settings) (least : Severity) (path : String) (origin : Origin) : Result :=
  let options : CompileOptions :=
    { rounds := s.rounds, slots := s.slots, statistics := if s.statistics then some {} else none }
  let c := compileFile options path origin
  let log := logText least c.journal.toList
  match c.failure with
  | none => { exit := 0, stdout := c.output, stderr := log ++ c.statistics }
  | some e =>
    let line := if Severity.isEnabled least .error then
        logLine .error "compilation failed" [("input", .text path), ("error", .text e.message)]
      else ""
    fail (log ++ c.statistics ++ line) e.message

/-- The command after its arguments have been read. -/
def runWith (defaults : Settings) (open_ : String → Origin) (flags : Flags) (path : String) :
    Result :=
  match settings defaults flags open_ with
  | .error (.fault f) => crash f.message
  | .error e => fail "" e.message
  | .ok s =>
    match Severity.ofLevel s.logLevel with
    | .error e => fail "" e
    | .ok least => compileOne s least path (open_ path)

/-- The whole command. The environment is looked at before the arguments. -/
def run (env : String → String) (open_ : String → Origin) (arguments : List String) : Result :=
  match Environment.defaults env with
  | .error e => crash e.message
  | .ok defaults =>
    match parseArguments {} arguments with
    | .help => { exit := 0, stderr := usage defaults }
    | .refused e => { exit := 2, stderr := e.message ++ "\n" ++ usage defaults }
    | .run flags [path] => runWith defaults open_ flags path
    | .run _ _ => { exit := 2, stderr := usage defaults }

end Straightline.Command
