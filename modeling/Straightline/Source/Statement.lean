import Straightline.Inst
import Straightline.Numeral.Fractional
import Straightline.Numeral.Integer
import Straightline.Text.Blank

/-!
# Statements

A line of program text is one instruction, `dst = op(arg, …)`, with blanks anywhere between its
parts. `parseStatement` takes a line apart at `=`, `(` and `,`; destinations, opcodes and names are
identifiers, an operand that begins with a digit is a literal, and a temporary must have been
defined by an earlier line.
-/

set_option autoImplicit false

namespace Straightline.Source

/-- Program text, byte by byte. -/
abbrev Bytes := List UInt8

/-- What is wrong with a line. -/
inductive Reason where
  | assignment
  | operandList
  | destination
  | opcode
  | emptyOperand
  | literal (token : Bytes)
  | operand (token : Bytes)
  | undefined (name : String)
deriving DecidableEq, Repr

/-- The wording of a reason. -/
def Reason.message : Reason → String
  | assignment => "expected exactly one '='"
  | operandList => "malformed operand list"
  | destination => "invalid destination"
  | opcode => "invalid opcode"
  | emptyOperand => "empty operand"
  | literal token => "invalid literal " ++ Text.quote token
  | operand token => "invalid operand " ++ Text.quote token
  | undefined name => "temporary " ++ name ++ " used before definition"

/-- `0` to `9`. -/
def isDigitByte (b : UInt8) : Bool := '0'.toUInt8 ≤ b && b ≤ '9'.toUInt8

/-- ASCII letters, digits and the underscore. -/
def isIdentByte (b : UInt8) : Bool :=
  b = '_'.toUInt8 || isDigitByte b || ('a'.toUInt8 ≤ b && b ≤ 'z'.toUInt8)
    || ('A'.toUInt8 ≤ b && b ≤ 'Z'.toUInt8)

/-- A non-empty run of identifier characters that does not begin with a digit. -/
def isIdent : Bytes → Bool
  | [] => false
  | b :: rest => !isDigitByte b && (b :: rest).all isIdentByte

/-- One character per byte, which is what ASCII text means. -/
def toChars (bytes : Bytes) : List Char := bytes.map fun b => Char.ofNat b.toNat

/-- An identifier as a string. -/
def toText (bytes : Bytes) : String := String.ofList (toChars bytes)

/-- A literal token: an integer if it is a decimal number that fits, a float otherwise. -/
def parseLiteral (token : Bytes) : Except Reason Literal :=
  match Numeral.readInt32 (toChars token) with
  | some n => .ok (.ofInt n)
  | none =>
    match Numeral.readBinary32 (toChars token) with
    | some bits => .ok (.ofFloatBits bits)
    | none => .error (.literal token)

/-- An operand token. Temporaries mean the latest definition among `temps`. -/
def parseOperand (temps : List (String × InstId)) : Bytes → Except Reason Value
  | [] => .error .emptyOperand
  | b :: rest =>
    let token := b :: rest
    if isDigitByte b then (parseLiteral token).map .literal
    else if !isIdent token then .error (.operand token)
    else if !isTemp (toText token) then .ok (.name (toText token))
    else match temps.lookup (toText token) with
      | some id => .ok (.ref id)
      | none => .error (.undefined (toText token))

/-- The operands in order; the first bad one decides. -/
def parseOperands (temps : List (String × InstId)) (tokens : List Bytes) :
    Except Reason (List Value) :=
  tokens.mapM fun token => parseOperand temps (Text.trim token)

/-- The text between the parentheses, if what follows the opening one holds a single closing one,
at its end. -/
def operandText? (text : Bytes) : Option Bytes :=
  if text.count ')'.toUInt8 = 1 ∧ text.getLast? = some ')'.toUInt8 then some text.dropLast else none

/-- One line as an instruction. -/
def parseStatement (temps : List (String × InstId)) (line : Bytes) : Except Reason Inst :=
  match line.splitOn '='.toUInt8 with
  | [left, right] =>
    match (Text.trim right).splitOn '('.toUInt8 with
    | [callee, list] =>
      match operandText? list with
      | none => .error .operandList
      | some operands =>
        let dst := Text.trim left
        let op := Text.trim callee
        if !isIdent dst then .error .destination
        else if !isIdent op then .error .opcode
        else
          match parseOperands temps (operands.splitOn ','.toUInt8) with
          | .error r => .error r
          | .ok args => .ok { dst := toText dst, op := toText op, args }
    | _ => .error .operandList
  | _ => .error .assignment

end Straightline.Source
