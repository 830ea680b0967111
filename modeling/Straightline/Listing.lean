import Straightline.Store.Order

/-!
# Program text

A program is written one instruction per line, in program order, with references spelled by the
destination they refer to. The target has no float operands, so a listing for the target
(`emit`) refuses a program that still holds one, while `listing` writes any program.
-/

set_option autoImplicit false

namespace Straightline

/-- A float literal that was still an operand when the program was written for the target. -/
structure Survivor where
  literal : Literal
  dst : String
deriving DecidableEq, Repr

/-- The wording of the failure. -/
def Survivor.message (s : Survivor) : String :=
  "Internal error: float literal " ++ s.literal.text ++ " survived lowering in " ++ s.dst

/-- The text of an operand. -/
def operandText : Value → Action String
  | .ref id => read id (·.dst)
  | .name s => pure s
  | .literal l => pure l.text

/-- One line of a listing. -/
def lineText (id : InstId) : Action String := do
  let inst ← read id fun i => i
  let args ← inst.args.mapM operandText
  pure (inst.dst ++ " = " ++ inst.op ++ "(" ++ ", ".intercalate args ++ ")\n")

/-- The operand if it is a float literal, else what was found before. -/
def Survivor.next (dst : String) (found : Option Survivor) : Value → Option Survivor
  | .literal ⟨.float, bits⟩ => some ⟨⟨.float, bits⟩, dst⟩
  | _ => found

/-- The last float literal among the operands of an instruction. -/
def Inst.survivor? (i : Inst) : Option Survivor := i.args.foldl (Survivor.next i.dst) none

/-- The whole program, float literals included. -/
def listing : Action String :=
  foldEach (fun text id => do pure (text ++ (← lineText id))) ""

/-- The program for the target, or the first instruction's float literal that is in the way. -/
def emit : Action (Except Survivor String) :=
  foldEach (fun result id =>
    match result with
    | .error e => pure (.error e)
    | .ok text => do
      let line ← lineText id
      match ← read id Inst.survivor? with
      | some e => pure (.error e)
      | none => pure (.ok (text ++ line))) (.ok "")

end Straightline
