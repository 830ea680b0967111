import Straightline.Store.Basic

/-!
# Access to instructions

Instructions are reached by `view`, which allows further views of the same instruction meanwhile,
and by `update`, which allows no other access. Both hold the slot while their body runs and release
it however the body ends. A request that conflicts with such a hold is a fault.

Most accesses run no other access inside: `read` is a view that only looks, and `edit` an update
that only changes the instruction at hand, so neither has to record a hold.
-/

set_option autoImplicit false

namespace Straightline

/-- Runs `body`, then `after` on the workspace it leaves, also when it ends in a fault. -/
def thenAlways {α : Type} (body : Action α) (after : Workspace → Workspace) : Action α := fun w =>
  match body w with
  | .ok a w' => .ok a (after w')
  | .error e w' => .error e (after w')

/-- One view fewer. -/
def Hold.unview : Hold → Hold
  | .shared (n + 1) => .shared n
  | h => h

/-- Gives a slot a new record of the accesses in progress. -/
def setHold (id : InstId) (f : Hold → Hold) (w : Workspace) : Workspace :=
  { w with store := w.store.modifySlot id fun s => { s with hold := f s.hold } }

/-- Checks that a view is possible, and gives the number of views in progress. -/
def allowView (id : InstId) (s : Slot) : Action Nat :=
  match s.hold with
  | .shared n => pure n
  | .exclusive => throw (.aliasing id .view .update)

/-- Checks that an update is possible. -/
def allowUpdate (id : InstId) (s : Slot) : Action Unit :=
  match s.hold with
  | .shared 0 => pure ()
  | .shared (_ + 1) => throw (.aliasing id .update .view)
  | .exclusive => throw (.aliasing id .update .update)

/-- Runs `body` with shared access to an instruction. -/
def view {α : Type} (id : InstId) (body : Inst → Action α) : Action α := do
  let s ← getSlot id
  let n ← allowView id s
  modify (setHold id fun _ => .shared (n + 1))
  thenAlways (body s.inst) (setHold id Hold.unview)

/-- Runs `body` with exclusive access to an instruction. -/
def update {α : Type} (id : InstId) (body : Inst → Action α) : Action α := do
  let s ← getSlot id
  allowUpdate id s
  modify (setHold id fun _ => .exclusive)
  thenAlways (body s.inst) (setHold id fun _ => .shared 0)

/-- Looks at a slot. -/
def readSlot {α : Type} (id : InstId) (f : Slot → α) : Action α := do
  let s ← getSlot id
  let _ ← allowView id s
  pure (f s)

/-- Looks at an instruction. -/
def read {α : Type} (id : InstId) (f : Inst → α) : Action α := readSlot id fun s => f s.inst

/-- Changes a slot. -/
def editSlot (id : InstId) (f : Slot → Slot) : Action Unit := do
  let s ← getSlot id
  allowUpdate id s
  modifyStore (·.modifySlot id f)

/-- Changes an instruction. -/
def edit (id : InstId) (f : Inst → Inst) : Action Unit :=
  editSlot id fun s => { s with inst := f s.inst }

/-- Changes an instruction and gives what `f` found in it. -/
def editGet {α : Type} (id : InstId) (f : Inst → α × Inst) : Action α := do
  let s ← getSlot id
  allowUpdate id s
  modifyStore (·.modifySlot id fun t => { t with inst := (f s.inst).2 })
  pure (f s.inst).1

/-- Changes an instruction if `f` has a change to make, and gives what came with the change. -/
def editIf {α : Type} (id : InstId) (f : Inst → Option (Inst × α)) : Action (Option α) :=
  editGet id fun i =>
    match f i with
    | none => (none, i)
    | some (i', a) => (some a, i')

/-- A slot that no update holds can be read. -/
theorem readSlot_of_shared {α : Type} {w : Workspace} {id : InstId} {s : Slot} {n : Nat}
    (f : Slot → α) (h : w.store.slot? id = some s) (hs : s.hold = .shared n) :
    readSlot id f w = .ok (f s) w := by
  simp [readSlot, bind, EStateM.bind, getSlot_of_some h, allowView, hs, pure, EStateM.pure]

/-- A slot that nothing holds can be changed. -/
theorem editSlot_of_free {w : Workspace} {id : InstId} {s : Slot} (f : Slot → Slot)
    (h : w.store.slot? id = some s) (hs : s.hold = .shared 0) :
    editSlot id f w = .ok () { w with store := w.store.modifySlot id f } := by
  simp [editSlot, bind, EStateM.bind, getSlot_of_some h, allowUpdate, hs, pure, EStateM.pure,
    run_modifyStore]

end Straightline
