import Straightline.Store.Order

/-!
# Algebraic identities

Three rules on floats, each applied to the whole program in turn. Literals are matched by their
bits, so a rule fires exactly on the constant it names.

* `mul_f(1.0, x)` is `move(x)`;
* `muladd_f(a, 1.0, b)` is `add_f(a, b)`;
* `div_f(x, k)` is `mul_f(x, 1/k)` for a literal `k`, with the reciprocal rounded once.
-/

set_option autoImplicit false

namespace Straightline

/-- A rule replaces some instructions by simpler ones and reports it. -/
abbrev Rule := Inst → Option (Inst × Event)

namespace Rule

/-- `mul_f(1.0, x)` becomes `move(x)`. -/
def unitProduct : Rule := fun i =>
  match i.args with
  | [one, x] =>
    if i.op = Opcode.mulF ∧ one = .one then
      some ({ i with op := Opcode.move, args := [x] }, .unitProduct i.dst)
    else none
  | _ => none

/-- `muladd_f(a, 1.0, b)` becomes `add_f(a, b)`. -/
def unitProductSum : Rule := fun i =>
  match i.args with
  | [a, one, b] =>
    if i.op = Opcode.mulAddF ∧ one = .one then
      some ({ i with op := Opcode.addF, args := [a, b] }, .unitProductSum i.dst)
    else none
  | _ => none

/-- `div_f(x, k)` becomes `mul_f(x, 1/k)` for a float literal `k`. -/
def reciprocal : Rule := fun i =>
  match i.args with
  | [x, .literal ⟨.float, k⟩] =>
    if i.op = Opcode.divF then
      let inverse := Literal.ofFloatBits (Binary32.reciprocal k)
      some ({ i with op := Opcode.mulF, args := [x, .literal inverse] },
        .inverted i.dst ⟨.float, k⟩)
    else none
  | _ => none

/-- Applies a rule to one instruction. -/
def visit (rule : Rule) (id : InstId) : Action Unit := do
  match ← editIf id rule with
  | some event => report event
  | none => pure ()

/-- Applies a rule to every instruction. -/
def sweep (rule : Rule) : Action Unit := forEach rule.visit

end Rule

/-- Applies the three rules, one after the other. -/
def algebra : Action Unit := do
  Rule.sweep .unitProduct
  Rule.sweep .unitProductSum
  Rule.sweep .reciprocal

end Straightline
