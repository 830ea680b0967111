import Straightline.Store.Access

/-!
# The program order

Instructions are inserted at either end of the order; `unlink` takes one out and leaves its slot
behind. Links are changed through the same checked access as everything else, so each of the three
may stop half-way when a neighbour is in use.

An instruction with a neighbour is not inserted once more. The only instruction of an order has no
neighbour, nor has one that was taken out, so this does not refuse all that have been inserted
before.

`foldEach` visits the order from the head. Each visit may take instructions out of the order: the
way ahead is read before the visit, and once more after it if the visited instruction is still part
of the order. A link leads to an instruction that stands later, unless one was inserted twice: then
the links may lead back. A walk that is not over after as many steps as there are slots counts as
one without an end.
-/

set_option autoImplicit false

namespace Straightline

/-- What is inserted: an instruction that was just made, or once more the one at an identity. -/
inductive Newcomer where
  | made (inst : Inst)
  | again (id : InstId)

/-- Fills the next slot; an instruction that has a neighbour is refused. -/
def occupy : Newcomer → Action Unit
  | .made i => modifyStore fun s => { s with toArena := s.fill i }
  | .again id => do
    let t ← getSlot id
    if t.isLinked then throw .alreadyLinked
    else modifyStore fun s => { s with toArena := s.share id }

/-- Gives an instruction a new slot. -/
def allocate (n : Newcomer) : Action InstId := do
  let id := (← get).store.nextId
  occupy n
  pure id

/-- Makes `after` follow `before`; before the first instruction stands the head. -/
def setNext (before after : Option InstId) : Action Unit :=
  match before with
  | none => modifyStore fun s => { s with head := after }
  | some id => editSlot id fun s => { s with next := after }

/-- Makes `before` precede `after`; after the last instruction stands the tail. -/
def setPrev (after before : Option InstId) : Action Unit :=
  match after with
  | none => modifyStore fun s => { s with tail := before }
  | some id => editSlot id fun s => { s with prev := before }

/-- Links an instruction at the end of the program. -/
def append (n : Newcomer) : Action InstId := do
  let id ← allocate n
  let last := (← get).store.tail
  modifyStore (·.modifySlot id fun t => { t with prev := last })
  setNext last (some id)
  modifyStore fun s => { s with tail := some id }
  pure id

/-- Links an instruction at the beginning of the program. -/
def prepend (n : Newcomer) : Action InstId := do
  let id ← allocate n
  let first := (← get).store.head
  modifyStore (·.modifySlot id fun t => { t with next := first })
  setPrev first (some id)
  modifyStore fun s => { s with head := some id }
  pure id

/-- Whether the instruction is part of the program order. -/
def isLive (id : InstId) : Action Bool :=
  if id = .absent then pure false
  else do
    let s ← getSlot id
    pure s.live

/-- The instruction after this one. -/
def next (id : InstId) : Action (Option InstId) := readSlot id (·.next)

/-- The instruction before this one. -/
def prev (id : InstId) : Action (Option InstId) := readSlot id (·.prev)

/-- Takes an instruction out of the program order. Its slot is kept, without neighbours, and is not
part of the order again. -/
def unlink (id : InstId) : Action Unit := do
  if ← isLive id then
    let s ← getSlot id
    editSlot id fun t => { t with prev := none, next := none }
    setNext s.prev s.next
    setPrev s.next s.prev
    modifyStore (·.modifySlot id fun t => { t with live := false })
  else throw (.unlinkedTwice id)

/-- The instruction after this one, or the one that was there before if this one is gone. -/
def nextUnless (before : Option InstId) (id : InstId) : Action (Option InstId) := do
  if ← isLive id then next id else pure before

/-- Visits instructions along the program order, for at most the given number of steps. -/
def foldFrom {β : Type} (visit : β → InstId → Action β) :
    Nat → Option InstId → β → Action β
  | _, none, b => pure b
  | 0, some _, _ => throw .endless
  | steps + 1, some id, b => do
    let ahead ← next id
    let b ← visit b id
    let ahead ← nextUnless ahead id
    foldFrom visit steps ahead b

/-- Visits every instruction in program order, passing a value along. -/
def foldEach {β : Type} (visit : β → InstId → Action β) (init : β) : Action β := do
  let s := (← get).store
  foldFrom visit s.slots.size s.head init

/-- Visits every instruction in program order. -/
def forEach (visit : InstId → Action Unit) : Action Unit := foldEach (fun _ id => visit id) ()

/-- The number of instructions in the program order. -/
def length : Action Nat := foldEach (fun n _ => pure (n + 1)) 0

/-- Walks backwards, for at most the given number of steps. -/
def backwardFrom : Nat → Option InstId → Action (List InstId)
  | _, none => pure []
  | 0, some _ => throw .endless
  | steps + 1, some id => do
    let behind ← prev id
    let rest ← backwardFrom steps behind
    pure (id :: rest)

/-- The instructions from the tail back along the links. -/
def backward : Action (List InstId) := do
  let s := (← get).store
  backwardFrom s.slots.size s.tail

end Straightline
