import Straightline.Uses

/-!
# Repeated computations

A temporary that computes what an earlier temporary already holds is removed, and its consumers read
the earlier one. `Available` is the table of computations whose value still stands; writing a name
strikes out the computations that read it. Instructions with a named destination enter the table but
are never merged.
-/

set_option autoImplicit false

namespace Straightline

/-- The computations available at some point of the program: each one by its key with the
instruction that performed it, and the keys that read each name. -/
structure Available where
  computed : List (String × InstId) := []
  readers : List (String × String) := []
deriving DecidableEq, Repr

namespace Available

/-- Notes that the computation `key` reads the given names. -/
def noteReads (t : Available) (key : String) (names : List String) : Available :=
  { t with readers := names.map (·, key) ++ t.readers }

/-- Strikes out every computation known to read a name. -/
def overwrite (t : Available) (name : String) : Available :=
  let stale := (t.readers.filter (·.1 = name)).map (·.2)
  { computed := t.computed.filter fun entry => !stale.contains entry.1
    readers := t.readers.filter (·.1 ≠ name) }

/-- The instruction that performed a computation. -/
def find? (t : Available) (key : String) : Option InstId := t.computed.lookup key

/-- Makes a computation available. -/
def insert (t : Available) (key : String) (id : InstId) : Available :=
  { t with computed := (key, id) :: t.computed }

end Available

/-- The names that operands read. -/
def namesOf (args : List Value) : List String :=
  args.filterMap fun
    | .name s => some s
    | _ => none

/-- Merges the instruction `id` into the earlier `first`, which computes the same. -/
def mergeInto (first id : InstId) (i : Inst) : Action Unit := do
  let users ← redirect i.uses id (.ref first)
  edit first fun f => { f with uses := f.uses ++ users }
  unlink id
  let into ← read first (·.dst)
  report (.merged i.dst into)

/-- Merges the instruction `id` into the earlier `first` if both define temporaries. -/
def mergeTemps (first id : InstId) (i : Inst) : Action Unit :=
  if i.isTemp then do
    let into ← read first (·.dst)
    if isTemp into then mergeInto first id i
  else pure ()

/-- The table after an instruction has read its operands and written its destination. -/
def Available.passBy (t : Available) (i : Inst) : Available :=
  let t := t.noteReads i.key (namesOf i.args)
  if i.isTemp then t else t.overwrite i.dst

/-- Visits one instruction with the table of what is available before it, and gives the table for
the next one. -/
def mergeDuplicate (t : Available) (id : InstId) : Action Available := do
  let i ← read id fun i => i
  let t := t.passBy i
  match t.find? i.key with
  | none => pure (t.insert i.key id)
  | some first =>
    if ← isLive first then
      mergeTemps first id i
      pure t
    else pure (t.insert i.key id)

/-- Merges repeated computations of temporaries. -/
def duplicates : Action Unit := do
  let _ ← foldEach mergeDuplicate {}

end Straightline
