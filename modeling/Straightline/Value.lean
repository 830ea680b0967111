import Straightline.Literal
import Straightline.Text.Quoted

/-!
# Operands

An operand is a literal, a reference to the result of another instruction, or a name that lives
outside the program. `Value.key` spells an operand for comparison, `Value.text` for display; they
differ on literals only.
-/

set_option autoImplicit false

namespace Straightline

/-- The identity of an instruction: the number of instructions created before it. Other numbers can
be written down, and then name no instruction. -/
structure InstId where
  index : Int
deriving DecidableEq, Repr

namespace InstId

/-- The identity that no instruction ever has. -/
def absent : InstId := ⟨-1⟩

/-- `%n`, or `%nil` for the absent instruction. -/
def text (id : InstId) : String := if id = absent then "%nil" else "%" ++ Int.repr id.index

end InstId

/-- An instruction operand. -/
inductive Value where
  | literal (l : Literal)
  | ref (id : InstId)
  | name (s : String)
deriving DecidableEq, Repr

namespace Value

/-- Whether the operand is a literal. -/
def isLiteral : Value → Bool
  | literal _ => true
  | _ => false

/-- Whether the operand refers to an instruction. -/
def isRef : Value → Bool
  | ref _ => true
  | _ => false

/-- Whether the operand is a name. -/
def isName : Value → Bool
  | name _ => true
  | _ => false

/-- The operand for comparison: literals by kind and bits. -/
def key : Value → String
  | ref id => id.text
  | name s => s
  | literal l =>
    match l.kind with
    | .int => "$i" ++ Text.hex 8 l.bits.toNat
    | .float => "$f" ++ Text.hex 8 l.bits.toNat

/-- The operand for display. -/
def text : Value → String
  | literal l => l.text
  | ref id => id.text
  | name s => s

/-- The operand `1.0`. -/
def one : Value := literal Literal.floatOne

end Value

end Straightline
