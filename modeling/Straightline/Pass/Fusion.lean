import Straightline.Uses

/-!
# Multiply-add fusion

A product with a single consumer is merged into it when the consumer adds it to something or
subtracts something from it:

* `add_f(a * b, c)` and `add_f(c, a * b)` become `muladd_f(a, b, c)`;
* `sub_f(a * b, c)` becomes `mulsub_f(a, b, c)`. A product on the other side of a subtraction stays.

The consumer inherits the uses that the product had of its operands.
-/

set_option autoImplicit false

namespace Straightline.Fusion

/-- The fused form of an opcode. -/
def fusedOp? (op : String) : Option String :=
  if op = Opcode.addF then some Opcode.mulAddF
  else if op = Opcode.subF then some Opcode.mulSubF
  else none

/-- The consumer of the product `mul = a * b` with the product merged into it. -/
def fuse? (mul : InstId) (a b : Value) (user : Inst) : Option Inst :=
  match fusedOp? user.op, user.args with
  | some op, [x, y] =>
    if x = .ref mul then some { user with op, args := [a, b, y] }
    else if y = .ref mul ∧ user.op = Opcode.addF then some { user with op, args := [a, b, x] }
    else none
  | _, _ => none

/-- The operands of a product and its only consumer. -/
def candidate? (i : Inst) : Option (Value × Value × InstId) :=
  match i.args, i.uses with
  | [a, b], [user] => if i.op = Opcode.mulF then some (a, b, user) else none
  | _, _ => none

/-- Removes a product that has been merged into its consumer, which inherits its uses. -/
def retire (id user : InstId) (a b : Value) : Action Unit := do
  (refsOf [a, b]).forM fun r => edit r fun d => { d with uses := replaceUses d.uses id [user] }
  unlink id
  let dst ← read user (·.dst)
  let op ← read user (·.op)
  report (.fused dst op)

/-- Merges the product `id = a * b` into its consumer, if it can be. -/
def mergeInto (id user : InstId) (a b : Value) : Action Unit := do
  let fused ← editIf user fun i => (fuse? id a b i).map fun i' => (i', ())
  if fused.isSome then retire id user a b

/-- Visits one instruction: a product is merged into its only consumer. -/
def visit (id : InstId) : Action Unit := do
  match ← read id candidate? with
  | none => pure ()
  | some (a, b, user) =>
    if ← isLive user then mergeInto id user a b

end Straightline.Fusion

namespace Straightline

/-- Merges every product that can be into its consumer. -/
def fusion : Action Unit := forEach Fusion.visit

end Straightline
