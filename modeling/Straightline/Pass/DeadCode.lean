import Straightline.Store.Order

/-!
# Dead code

A temporary without consumers is removed. One pass looks at the use-sets as they are: a producer
that thereby loses its last consumer goes only after the next analysis.
-/

set_option autoImplicit false

namespace Straightline

/-- Whether nothing can tell if the instruction is there. -/
def Inst.isDead (i : Inst) : Bool := i.isTemp && i.uses.isEmpty

/-- Removes one instruction if it is dead. -/
def removeDead (id : InstId) : Action Unit := do
  let i ← read id fun i => i
  if i.isDead then
    unlink id
    report (.removed i.dst)

/-- Removes every dead instruction. -/
def deadCode : Action Unit := forEach removeDead

end Straightline
