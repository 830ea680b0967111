import Straightline.Store.Order

/-!
# Use-sets

`analyze` computes the use-sets afresh. Between two analyses the passes keep them up to date by hand
with `replaceUses` and `redirect`; the entries they leave behind are at worst identities of
instructions that are no longer part of the program.
-/

set_option autoImplicit false

namespace Straightline

/-- The instructions that operands refer to, one entry per operand. -/
def refsOf (args : List Value) : List InstId :=
  args.filterMap fun
    | .ref id => some id
    | _ => none

/-- Records a consumer of an instruction. -/
def addUse (user : InstId) (id : InstId) : Action Unit :=
  edit id fun i => { i with uses := i.uses ++ [user] }

/-- Empties a use-set. -/
def clearUses (id : InstId) : Action Unit := edit id fun i => { i with uses := [] }

/-- Records an instruction as a consumer of everything it refers to. -/
def recordUses (id : InstId) : Action Unit := do
  let args ← read id (·.args)
  (refsOf args).forM (addUse id)

/-- Recomputes every use-set: the consumers in program order, once per operand. -/
def analyze : Action Unit := do
  forEach clearUses
  forEach recordUses

/-- Removes every occurrence of `old` and puts `new` at the end. -/
def replaceUses (uses : List InstId) (old : InstId) (new : List InstId) : List InstId :=
  uses.filter (· ≠ old) ++ new

/-- Puts `v` in place of the references to `old` in an instruction, and counts them. -/
def redirectIn (old : InstId) (v : Value) (user : InstId) : Action Nat :=
  editGet user fun i => (i.occurrences (.ref old), i.replace (.ref old) v)

/-- Puts `v` in place of the references to `old` in those of the `users` that are part of the
program. `seen` are the users already dealt with. -/
def redirectFrom (old : InstId) (v : Value) (seen : List InstId) :
    List InstId → Action (List InstId)
  | [] => pure []
  | user :: rest =>
    if seen.contains user then redirectFrom old v seen rest
    else do
      if ← isLive user then
        let n ← redirectIn old v user
        let more ← redirectFrom old v (user :: seen) rest
        pure (List.replicate n user ++ more)
      else redirectFrom old v seen rest

/-- Puts `v` in place of the references to `old` in the `users`, and gives those users once per
operand replaced. -/
def redirect (users : List InstId) (old : InstId) (v : Value) : Action (List InstId) :=
  redirectFrom old v [] users

end Straightline
