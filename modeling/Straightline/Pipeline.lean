import Straightline.Lowering
import Straightline.Pass

/-!
# The pipeline

A pipeline runs a fixed number of rounds of its passes; a round that changes nothing is run like any
other. Compiling optimises the program, lowers its literals, and optimises it again, since lowering
may leave something to clean up. If statistics are collected, each pass records how many
instructions it left.
-/

set_option autoImplicit false

namespace Straightline

namespace Pipeline

/-- Starts counting phases anew, with or without statistics. -/
def reset (withStatistics : Bool) : Action Unit := modify fun w =>
  { w with phases := 0, statistics := if withStatistics then some #[] else none }

/-- Records how many instructions there are now, if statistics are collected. -/
def record (phase : String) (round : Nat) (pass : String) : Action Unit := do
  if (← get).statistics.isSome then
    let instructions ← length
    modify fun w =>
      { w with statistics := w.statistics.map (·.push { phase, round, pass, instructions }) }

/-- Runs one round. -/
def runRound (phase : String) (round : Nat) (stages : List Stage) : Action Unit :=
  stages.forM fun s => do
    s.pass.apply
    record phase round s.name

/-- Runs rounds, of which the first has the given number. -/
def runRounds (phase : String) (stages : List Stage) : Nat → Nat → Action Unit
  | 0, _ => pure ()
  | count + 1, round => do
    runRound phase round stages
    runRounds phase stages count (round + 1)

/-- Runs one optimisation phase. -/
def optimize (p : Pipeline) : Action Unit := do
  modify fun w => { w with phases := w.phases + 1 }
  let phase := "optimize #" ++ Nat.repr (← get).phases
  runRounds phase p.stages p.rounds.toNat 1
  report (.finished phase p.rounds)

/-- Records that the literals have been lowered. -/
def recordLowering : Action Unit := record "lower" 1 "Immediate Lowering"

/-- Lowers the literals. -/
def lower : Action (Except Unsupported Unit) := do
  match ← Straightline.lower with
  | .error e => pure (.error e)
  | .ok () =>
    recordLowering
    pure (.ok ())

/-- Optimises, lowers, and optimises again. -/
def compile (p : Pipeline) : Action (Except Unsupported Unit) := do
  analyze
  p.optimize
  match ← lower with
  | .error e => pure (.error e)
  | .ok () =>
    analyze
    p.optimize
    pure (.ok ())

end Pipeline

/-! The pipeline that a workspace holds is set up by `install`; it may be used before that. What
does not need the pipeline still happens then, and the rest is a fault. -/

namespace Workspace

/-- Sets up a pipeline, with or without statistics. -/
def install (p : Pipeline) (withStatistics : Bool) : Action Unit := do
  Pipeline.reset withStatistics
  modify fun w => { w with pipeline := some p }

/-- The pipeline that was set up. -/
def installed : Action Pipeline := do
  match (← get).pipeline with
  | some p => pure p
  | none => throw .noPipeline

/-- Runs an optimisation phase of the pipeline. -/
def optimize : Action Unit := do (← installed).optimize

/-- Lowers the literals, and records it in the pipeline. -/
def lower : Action (Except Unsupported Unit) := do
  match ← Straightline.lower with
  | .error e => pure (.error e)
  | .ok () =>
    let _ ← installed
    Pipeline.recordLowering
    pure (.ok ())

/-- Analyses the program and compiles it. -/
def compile : Action (Except Unsupported Unit) := do
  match (← get).pipeline with
  | some p => p.compile
  | none =>
    analyze
    throw .noPipeline

end Workspace

end Straightline
