import Straightline.Store.Order

/-!
# Lowering to immediates

The target knows literals only as immediate fields. A float is built once, at the beginning of the
program: `lu_imm` sets the bits above the low field, and `or_i_imm` adds the low field unless it is
zero. An integer stays in place on an opcode that has an immediate form; a move of an integer whose
low field is zero becomes `lu_imm`. Every other integer operand is unsupported.
-/

set_option autoImplicit false

namespace Straightline

/-- An integer operand that the target cannot encode. -/
inductive Unsupported where
  /-- The opcode has no immediate form. -/
  | noImmediateForm (op : String) (literal : Literal)
  /-- The move of an integer with a low field. -/
  | lowField (op : String) (literal : Literal)
deriving DecidableEq, Repr

namespace Unsupported

/-- The opcode of the instruction. -/
def op : Unsupported → String
  | noImmediateForm op _ => op
  | lowField op _ => op

/-- What is in the way. -/
def reason : Unsupported → String
  | noImmediateForm _ l => "no immediate form for integer " ++ l.text
  | lowField _ l => "integer " ++ l.text ++ " has a non-zero low field"

/-- The wording of the failure. -/
def message (u : Unsupported) : String := "Unsupported program (" ++ u.op ++ "): " ++ u.reason

end Unsupported

/-- The floats built so far, with the instructions that hold them. -/
abbrev Built := List (Literal × InstId)

/-- The immediate operand with the value of a field. -/
def immediate (field : UInt32) : Value := .literal (.ofInt field.toNat)

/-- The temporary that holds a float. -/
def floatName (l : Literal) : String := "T_f_" ++ l.mangled

/-- The temporary that holds the upper bits of a float. -/
def floatHighName (l : Literal) : String := "T_f_hi_" ++ l.mangled

/-- Puts the instructions that build a float at the beginning of the program. -/
def buildFloat (l : Literal) : Action InstId := do
  if l.low = 0 then
    prepend (.made { dst := floatName l, op := Opcode.luImm, args := [immediate l.high] })
  else
    let id ← prepend (.made { dst := floatName l, op := Opcode.orIImm, args := [immediate l.low] })
    let high ←
      prepend (.made { dst := floatHighName l, op := Opcode.luImm, args := [immediate l.high] })
    edit id fun i => { i with args := [.ref high, immediate l.low] }
    pure id

/-- The instruction that holds a float, built now if need be. -/
def materialize (built : Built) (l : Literal) : Action (InstId × Built) := do
  match built.lookup l with
  | some id => pure (id, built)
  | none =>
    let id ← buildFloat l
    report (.lowered l)
    pure (id, (l, id) :: built)

/-- Whether an opcode has an immediate form to switch to. -/
def hasImmediateForm (op : String) : Bool := op = Opcode.gtI || op = Opcode.subI

/-- An instruction with an integer operand, in a form that the target can encode. -/
def encodeInteger (l : Literal) (i : Inst) : Except Unsupported Inst :=
  if i.op = Opcode.move then
    if l.low = 0 then .ok { i with op := Opcode.luImm, args := [immediate l.high] }
    else .error (.lowField i.op l)
  else if Opcode.isImmediate i.op then .ok i
  else if hasImmediateForm i.op then .ok { i with op := i.op ++ Opcode.immediateMark }
  else .error (.noImmediateForm i.op l)

/-- Lowers an integer operand of the instruction `id`. -/
def lowerInteger (id : InstId) (l : Literal) : Action (Except Unsupported Unit) :=
  editGet id fun i =>
    match encodeInteger l i with
    | .ok i' => (.ok (), i')
    | .error e => (.error e, i)

/-- Lowers one operand of the instruction `id`. -/
def lowerOperand (built : Built) (id : InstId) (position : Nat) :
    Value → Action (Except Unsupported Built)
  | .literal ⟨.float, bits⟩ => do
    let (r, built) ← materialize built ⟨.float, bits⟩
    edit id fun i => { i with args := i.args.set position (.ref r) }
    pure (.ok built)
  | .literal ⟨.int, bits⟩ => do
    match ← lowerInteger id ⟨.int, bits⟩ with
    | .ok () => pure (.ok built)
    | .error e => pure (.error e)
  | _ => pure (.ok built)

/-- Lowers the operands of an instruction from a position on, for at most the given number of
operands. Each one is looked up when its turn comes, since the list may have become shorter. -/
def lowerOperands (id : InstId) : Nat → Nat → Built → Action (Except Unsupported Built)
  | 0, _, built => pure (.ok built)
  | count + 1, position, built => do
    match ← read id (·.args[position]?) with
    | none => pure (.ok built)
    | some v =>
      match ← lowerOperand built id position v with
      | .error e => pure (.error e)
      | .ok built => lowerOperands id count (position + 1) built

/-- Lowers one instruction. -/
def lowerInst (id : InstId) (built : Built) : Action (Except Unsupported Built) := do
  let count ← read id (·.args.length)
  lowerOperands id count 0 built

/-- Lowers the instructions from one on, for at most the given number of steps. -/
def lowerFrom : Nat → Option InstId → Built → Action (Except Unsupported Unit)
  | _, none, _ => pure (.ok ())
  | 0, some _, _ => throw .endless
  | steps + 1, some id, built => do
    match ← lowerInst id built with
    | .error e => pure (.error e)
    | .ok built => lowerFrom steps (← next id) built

/-- Lowers every literal of the program. What is put at the beginning meanwhile is not visited. -/
def lower : Action (Except Unsupported Unit) := do
  let s := (← get).store
  lowerFrom s.slots.size s.head []

end Straightline
