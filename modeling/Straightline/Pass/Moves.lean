import Straightline.Uses

/-!
# Redundant moves

Two sweeps remove moves.

* `renameMoves`: when the only consumer of a temporary is a move, the producer takes over the
  destination and the consumers of the move. Producers of a name stay as they are, because their
  result is visible from outside.
* `forwardMoves`: a move into a temporary disappears, and its consumers read its source.
-/

set_option autoImplicit false

namespace Straightline

/-- The only consumer of a temporary. -/
def Inst.soleUser? (i : Inst) : Option InstId :=
  match i.uses with
  | [user] => if i.isTemp then some user else none
  | _ => none

/-- The destination and the consumers of a move that reads `source`. A move without a destination
does not count. -/
def Inst.moveFrom? (source : InstId) (i : Inst) : Option (String × List InstId) :=
  if i.op = Opcode.move ∧ i.args = [.ref source] ∧ i.dst ≠ "" then some (i.dst, i.uses) else none

/-- Lets the producer `id` take over the destination and the consumers of the move `user`. -/
def takeOver (id user : InstId) (dst : String) (uses : List InstId) : Action Unit := do
  unlink user
  let uses ← redirect uses user (.ref id)
  let source ← editGet id fun i => (i.dst, { i with dst, uses })
  report (.renamed source dst)

/-- Visits one instruction: a producer takes over the move that is its only consumer. -/
def renameMove (id : InstId) : Action Unit := do
  match ← read id Inst.soleUser? with
  | none => pure ()
  | some user =>
    if ← isLive user then
      match ← read user (Inst.moveFrom? id) with
      | none => pure ()
      | some (dst, uses) => takeOver id user dst uses

/-- Renames producers after the moves that read them. -/
def renameMoves : Action Unit := forEach renameMove

/-- The source and the consumers of a move into a temporary. -/
def Inst.forwardable? (i : Inst) : Option (Value × List InstId) :=
  match i.args with
  | [source] => if i.op = Opcode.move ∧ i.isTemp then some (source, i.uses) else none
  | _ => none

/-- Lets the consumers of the move `id` read its source, and removes the move. -/
def bypass (id : InstId) (source : Value) (uses : List InstId) : Action Unit := do
  let uses ← redirect uses id source
  let dst ← read id (·.dst)
  report (.forwarded dst source)
  (refsOf [source]).forM fun r => edit r fun d => { d with uses := replaceUses d.uses id uses }
  unlink id

/-- Visits one instruction: a move into a temporary is bypassed. -/
def forwardMove (id : InstId) : Action Unit := do
  match ← read id Inst.forwardable? with
  | none => pure ()
  | some (source, uses) => bypass id source uses

/-- Forwards the sources of moves. -/
def forwardMoves : Action Unit := forEach forwardMove

/-- Removes redundant moves, by renaming first. -/
def moves : Action Unit := do
  renameMoves
  forwardMoves

end Straightline
