import Straightline.Source.Statement
import Straightline.Store.Order

/-!
# Reading programs

A program text is a sequence of lines, each one instruction. Lines end at a line feed; a carriage
return before it belongs to the line's end, and a last line without a line feed counts unless it is
empty. Reading stops at the first line that is too long or malformed. A temporary may be defined
more than once: later lines then mean the latest definition, and a warning is reported.
-/

set_option autoImplicit false

namespace Straightline.Source

/-- A malformed line. -/
structure SyntaxError where
  line : Nat
  source : Bytes
  reason : Reason
deriving DecidableEq, Repr

/-- The wording of a syntax error. -/
def SyntaxError.message (e : SyntaxError) : String :=
  "Syntax error at line " ++ Nat.repr e.line ++ ": " ++ e.reason.message ++ ": "
    ++ Text.quote e.source

/-- Why a program text cannot be read. -/
inductive ReadError where
  | malformed (e : SyntaxError)
  | lineTooLong
deriving DecidableEq, Repr

/-- The wording of a read error. -/
def ReadError.message : ReadError → String
  | malformed e => e.message
  | lineTooLong => "read program: bufio.Scanner: token too long"

/-- Lines must be shorter than this many bytes. -/
def lineLimit : Nat := 1024 * 1024

/-- The lines of a text, without their line feeds. -/
def lines (source : Bytes) : List Bytes :=
  let parts := source.splitOn '\n'.toUInt8
  if parts.getLast? = some [] then parts.dropLast else parts

/-- A line without the carriage return at its end. -/
def dropReturn (line : Bytes) : Bytes :=
  if line.getLast? = some '\r'.toUInt8 then line.dropLast else line

/-- Makes a name mean a new instruction, with a warning if it meant another one before. -/
def bindTemp (line : Nat) (name : String) (id : InstId) : Action Unit := do
  let previous := (← get).store.lookup name
  modifyStore fun s => { s with temps := (name, id) :: s.temps }
  match previous with
  | some old => report (.redefined name line old)
  | none => pure ()

/-- Adds an instruction to the program and binds its destination if that is a temporary. -/
def addInst (line : Nat) (inst : Inst) : Action Unit := do
  let id ← append (.made inst)
  if inst.isTemp then bindTemp line inst.dst id else pure ()

/-- Adds the instruction of one line to the program. -/
def readLine (number : Nat) (line : Bytes) : Action (Except SyntaxError Unit) := do
  match parseStatement (← get).store.temps line with
  | .error reason => pure (.error ⟨number, line, reason⟩)
  | .ok inst =>
    addInst number inst
    pure (.ok ())

/-- Adds the instructions of the lines, which are numbered from `number` on. -/
def readLines : Nat → List Bytes → Action (Except ReadError Unit)
  | _, [] => pure (.ok ())
  | number, line :: rest =>
    if lineLimit ≤ line.length then pure (.error .lineTooLong)
    else do
      match ← readLine number (dropReturn line) with
      | .error e => pure (.error (.malformed e))
      | .ok () => readLines (number + 1) rest

/-- Adds the instructions of a program text to the program. -/
def readProgram (source : Bytes) : Action (Except ReadError Unit) := readLines 1 (lines source)

/-- Replaces the program by the one in the text; if that cannot be read, the program stays. -/
def load (source : Bytes) : Action (Except ReadError Unit) := do
  let old := (← get).store
  modifyStore fun _ => {}
  match ← readProgram source with
  | .ok () => pure (.ok ())
  | .error e =>
    modifyStore fun _ => old
    pure (.error e)

end Straightline.Source
