import Straightline.Value

/-!
# Instructions

An instruction `dst = op(arg, …)` computes one value. A destination that begins with `T_` is a
temporary and is referred to by identity; every other destination is a name that the outside world
can see. `uses` is the use-set: the instructions known to consume the result, once per operand.
-/

set_option autoImplicit false

namespace Straightline

/-! The opcodes that some rule knows about; all others are left as they are. -/

namespace Opcode

def move : String := "move"
def addF : String := "add_f"
def subF : String := "sub_f"
def mulF : String := "mul_f"
def divF : String := "div_f"
def mulAddF : String := "muladd_f"
def mulSubF : String := "mulsub_f"
def gtI : String := "gt_i"
def subI : String := "sub_i"
def luImm : String := "lu_imm"
def orIImm : String := "or_i_imm"

/-- Marks the form of an opcode that takes an integer in place. -/
def immediateMark : String := "_imm"

/-- Whether the opcode already takes an integer in place. -/
def isImmediate (op : String) : Bool := immediateMark.toList.isSuffixOf op.toList

end Opcode

/-- Whether a destination is a temporary. -/
def isTemp (name : String) : Bool := ['T', '_'].isPrefixOf name.toList

/-- One instruction. -/
structure Inst where
  dst : String
  op : String
  args : List Value
  uses : List InstId := []
deriving DecidableEq, Repr

namespace Inst

/-- Whether the instruction defines a temporary. -/
def isTemp (i : Inst) : Bool := Straightline.isTemp i.dst

/-- Puts `new` in place of every operand equal to `old`. -/
def replace (i : Inst) (old new : Value) : Inst :=
  { i with args := i.args.map fun a => if a = old then new else a }

/-- How many operands are equal to `v`. -/
def occurrences (i : Inst) (v : Value) : Nat := i.args.count v

/-- The instruction for display, references by identity. -/
def text (i : Inst) : String :=
  i.dst ++ " = " ++ i.op ++ "(" ++ ", ".intercalate (i.args.map Value.text) ++ ")"

/-- What the instruction computes, as a string: opcode and operands. Two instructions with equal
keys compute the same expression. -/
def key (i : Inst) : String := "(" ++ " ".intercalate (i.op :: i.args.map Value.key) ++ ")"

end Inst

end Straightline
