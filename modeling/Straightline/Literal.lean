import Straightline.Decimal.Notation

/-!
# Literals

A literal is a 32-bit integer or single-precision constant, kept as its bits: two literals are equal
exactly when their kinds and bits are. The target builds a constant from two fields, the low 13 bits
and the bits above them, and `cost` counts the instructions that takes.
-/

set_option autoImplicit false

namespace Straightline

/-- The two kinds of constants. -/
inductive LiteralKind where
  | int
  | float
deriving DecidableEq, Repr

/-- A 32-bit constant by kind and bits. -/
structure Literal where
  kind : LiteralKind
  bits : UInt32
deriving DecidableEq, Repr

namespace Literal

/-- The integer literal of a number, modulo 2³². -/
def ofInt (n : Int) : Literal := ⟨.int, UInt32.ofInt n⟩

/-- The float literal of a pattern; what is not a number has one canonical pattern. -/
def ofFloatBits (bits : UInt32) : Literal := ⟨.float, Binary32.canonical bits⟩

/-- The float literal `1.0`. -/
def floatOne : Literal := ofFloatBits Binary32.one

/-- The bits read as a signed integer. -/
def toInt (l : Literal) : Int := l.bits.toInt32.toInt

/-- The bits above the low immediate field. -/
def high (l : Literal) : UInt32 := l.bits >>> 13

/-- The low immediate field, 13 bits wide. -/
def low (l : Literal) : UInt32 := l.bits &&& 0x1fff

/-- How a literal is written. -/
def text (l : Literal) : String :=
  match l.kind with
  | .int => Int.repr l.toInt
  | .float => Decimal.floatText l.bits

/-- The characters of a written literal that no identifier may hold, and what stands for them. -/
def mangleChar (c : Char) : Char :=
  if c = '.' then '_' else if c = '-' then 'm' else if c = '+' then 'p' else c

/-- The literal's text as part of an identifier. -/
def mangled (l : Literal) : String := String.ofList (l.text.toList.map mangleChar)

/-- How many instructions build the literal from immediates; zero if it fits the low field. -/
def cost (l : Literal) : Nat :=
  match l.kind with
  | .float => if l.low = 0 then 1 else 2
  | .int => if l.high = 0 then 0 else 2

/-- The name of the constant that holds a lifted literal. -/
def constantName (l : Literal) : String :=
  match l.kind with
  | .int => "C_i_" ++ l.mangled
  | .float => "C_f_" ++ l.mangled

end Literal

end Straightline
