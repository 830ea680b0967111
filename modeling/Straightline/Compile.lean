import Straightline.Listing
import Straightline.Origin
import Straightline.Pipeline
import Straightline.Source.Reader
import Straightline.Statistics

/-!
# Compiling a program text

`compile` reads a program, runs the pipeline on it and writes the result for the target. Statistics
are written first, then the program; nothing is written if any step before fails.
-/

set_option autoImplicit false

namespace Straightline

/-- Where text goes. A sink either takes everything or refuses with a message. -/
structure Sink where
  refusal : Option String := none
deriving DecidableEq, Repr

/-- Why a compilation failed. -/
inductive Failure where
  | unopened (path : String) (why : OpenFailure)
  | directory (path : String)
  | unreadable (e : Source.ReadError)
  | unsupported (e : Unsupported)
  | survivor (e : Survivor)
  | statisticsRefused (message : String)
  | outputRefused (message : String)
  | fault (e : Fault)
deriving DecidableEq, Repr

/-- The wording of a failure. -/
def Failure.message : Failure → String
  | unopened path why => "open program: open " ++ path ++ ": " ++ why.text
  | directory path => "read program: read " ++ path ++ ": is a directory"
  | unreadable e => e.message
  | unsupported e => e.message
  | survivor e => e.message
  | statisticsRefused m => "write statistics: " ++ m
  | outputRefused m => m
  | fault e => e.message

/-- A choice of the caller that no compilation can work with. -/
inductive BadOption where
  | rounds (n : Int)
  | slots (n : Int)
deriving DecidableEq, Repr

/-- The wording of a refused option. -/
def BadOption.message : BadOption → String
  | rounds n => "ssaopt: invalid round count: " ++ Int.repr n
  | slots n => "ssaopt: invalid memory slot count: " ++ Int.repr n

/-- What a compilation is run with. -/
structure CompileOptions where
  rounds : Int := 5
  slots : Int := 32
  /-- Where the statistics go, if they are wanted. -/
  statistics : Option Sink := none
  output : Sink := {}
deriving DecidableEq, Repr

namespace CompileOptions

/-- Sets the number of rounds, which must be positive. -/
def withRounds (o : CompileOptions) (n : Int) : Except BadOption CompileOptions :=
  if n < 1 then .error (.rounds n) else .ok { o with rounds := n }

/-- Sets the number of slots, which must not be negative. -/
def withSlots (o : CompileOptions) (n : Int) : Except BadOption CompileOptions :=
  if n < 0 then .error (.slots n) else .ok { o with slots := n }

end CompileOptions

/-- What a compilation leaves behind: the text that reached each sink, the events, and the failure
if there was one. -/
structure Compilation where
  output : String := ""
  statistics : String := ""
  journal : Array Event := #[]
  failure : Option Failure := none
deriving DecidableEq, Repr

/-- Reads a program text, compiles it and gives it back as text for the target. -/
def compileText (rounds slots : Int) (withStatistics : Bool) (source : Source.Bytes) :
    Action (Except Failure String) := do
  match ← Source.load source with
  | .error e => pure (.error (.unreadable e))
  | .ok () =>
    Pipeline.reset withStatistics
    match ← (Pipeline.standard rounds slots).compile with
    | .error e => pure (.error (.unsupported e))
    | .ok () =>
      match ← emit with
      | .error e => pure (.error (.survivor e))
      | .ok text => pure (.ok text)

/-- Hands the results to the sinks, the statistics first. An empty program is not written at all, so
no sink can refuse it. -/
def deliver (o : CompileOptions) (text : String) (w : Workspace) : Compilation :=
  let journal := w.journal
  let table := match o.statistics, w.statistics with
    | some sink, some ms => some (sink, Statistics.table ms.toList)
    | _, _ => none
  match table with
  | some (⟨some m⟩, _) => { journal, failure := some (.statisticsRefused m) }
  | _ =>
    let statistics := (table.map (·.2)).getD ""
    match o.output.refusal with
    | some m =>
      if text = "" then { journal, statistics }
      else { journal, statistics, failure := some (.outputRefused m) }
    | none => { journal, statistics, output := text }

/-- Compiles a program text. -/
def compile (o : CompileOptions) (source : Source.Bytes) : Compilation :=
  match compileText o.rounds o.slots o.statistics.isSome source {} with
  | .error e w => { journal := w.journal, failure := some (.fault e) }
  | .ok (.error e) w => { journal := w.journal, failure := some e }
  | .ok (.ok text) w => deliver o text w

/-- Compiles the program that a path leads to. -/
def compileFile (o : CompileOptions) (path : String) : Origin → Compilation
  | .unopened why => { failure := some (.unopened path why) }
  | .directory => { failure := some (.directory path) }
  | .file content => compile o content

end Straightline
