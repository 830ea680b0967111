/-!
# Passes and pipelines as data

A pass is a transformation of the whole program, named here without saying what it does, so that
any sequence of passes can be written down. A pipeline is a number of rounds and the stages of a
round.
-/

set_option autoImplicit false

namespace Straightline

/-- A transformation of the whole program. -/
inductive Pass where
  | analysis
  | fusion
  | algebra
  | deadCode
  | moves
  | duplicates
  | lift (slots : Int)
deriving DecidableEq, Repr

namespace Pass

/-- The name of a pass in the statistics. -/
def title : Pass → String
  | analysis => "Use-Def Analysis"
  | fusion => "Multiply-Add Fusion"
  | algebra => "Algebraic Simplification"
  | deadCode => "Dead Code Elimination"
  | moves => "Peephole Reduction"
  | duplicates => "Common Sub-expression Elimination"
  | lift _ => "Literal Lifting"

/-- The passes of one round, in order. -/
def round (slots : Int) : List Pass :=
  [analysis, fusion, algebra, deadCode, moves, duplicates, lift slots]

end Pass

/-- A pass under the name that the statistics show. -/
structure Stage where
  name : String
  pass : Pass
deriving DecidableEq, Repr

/-- The rounds of an optimisation phase and the stages of a round. -/
structure Pipeline where
  rounds : Int
  stages : List Stage
deriving DecidableEq, Repr

/-- The pipeline with the usual passes. -/
def Pipeline.standard (rounds slots : Int) : Pipeline where
  rounds
  stages := (Pass.round slots).map fun pass => ⟨pass.title, pass⟩

end Straightline
