import Mathlib.Data.List.Pairwise
import Mathlib.Logic.Relation
import Straightline.Proofs.Frames

/-!
# Accesses in progress

A `Script` is anything that can be done with a store: operations, views and updates with scripts as
their bodies, faults, and the handling of faults. `Script.run` runs it with the store's own `view`
and `update`. To see what happens in between, the same script is run by a machine that keeps the
open accesses on a stack and takes one operation, one entry or one exit at a time (`Config.Step`).
The two agree (`Script.steps_run`).

The invariant of the machine is `Matches`: each slot records the accesses to it that are on the
stack, and an update shares its slot with no other access. No operation changes what a slot records
(`Operation.quiet`), an entry adds to it what the exit takes away again. When the stack is empty, no
slot records anything, whether the last exit was a return or a fault.

The operations reach their slots by `readSlot` and `editSlot`. These are views and updates that need
no record of themselves, because nothing runs inside (`readSlot_eq_view`, `editSlot_eq_update`).
-/

set_option autoImplicit false

namespace Straightline

/-- The accesses in progress as one number: the number of views, or -1 for an update. -/
def Hold.counter : Hold → Int
  | .shared views => views
  | .exclusive => -1

/-! ## Entry and exit -/

theorem run_modify (f : Workspace → Workspace) (w : Workspace) :
    (modify f : Action PUnit) w = .ok () (f w) := rfl

/-- The beginning of an access: the check, and the record that it is in progress. -/
def acquire : Access → InstId → Action Inst
  | .view, id => do
    let s ← getSlot id
    let n ← allowView id s
    modify (setHold id fun _ => .shared (n + 1))
    pure s.inst
  | .update, id => do
    let s ← getSlot id
    allowUpdate id s
    modify (setHold id fun _ => .exclusive)
    pure s.inst

/-- The end of an access. -/
def release : Access → InstId → Workspace → Workspace
  | .view, id => setHold id Hold.unview
  | .update, id => setHold id fun _ => .shared 0

/-- Runs `body` with the access asked for. -/
def request {α : Type} : Access → InstId → (Inst → Action α) → Action α
  | .view => view
  | .update => update

/-- An access is an entry, the body, and an exit that is not missed. -/
theorem request_eq {α : Type} (a : Access) (id : InstId) (body : Inst → Action α) :
    request a id body = (do
      let i ← acquire a id
      thenAlways (body i) (release a id)) := by
  cases a <;> simp only [request, view, update, acquire, release, bind_assoc, pure_bind]

/-! ## Accesses with no access inside -/

/-- The slot with another record. -/
def Slot.withHold (s : Slot) (h : Hold) : Slot := { s with hold := h }

theorem Slot.withHold_hold (s : Slot) : s.withHold s.hold = s := rfl

theorem Slot.withHold_withHold (s : Slot) (h h' : Hold) :
    (s.withHold h).withHold h' = s.withHold h' := rfl

namespace Store

/-- Of two writes to a slot the second one counts. -/
theorem write_write (a : Arena) (id : InstId) (t u : Slot) :
    (a.write id t).write id u = a.write id u := by
  cases he : a.find? id with
  | none => simp only [Arena.write, he]
  | some e =>
      have he' : (a.write id t).find? id = some { e with live := t.live, hold := t.hold } := by
        rw [Arena.find?_write, if_pos rfl, he, Option.map_some]
      have hslots : ∀ l l' : Bool, ∀ h h' : Hold,
          (a.slots.modify id.index.toNat fun e => { e with live := l, hold := h }).modify
            id.index.toNat (fun e => { e with live := l', hold := h' }) =
          a.slots.modify id.index.toNat fun e => { e with live := l', hold := h' } :=
        fun l l' h h' => Array.ext_getElem? fun n => by
          simp only [Array.getElem?_modify]
          split <;> simp [Function.comp_def]
      rw [Arena.write, he', Arena.write, Arena.write, he]
      simp [hslots]

/-- Two changes of one slot are one change. -/
theorem modifySlot_modifySlot (s : Store) (id : InstId) (f g : Slot → Slot) :
    (s.modifySlot id f).modifySlot id g = s.modifySlot id fun slot => g (f slot) := by
  cases h : s.slot? id with
  | none => simp only [modifySlot_of_none h]
  | some t =>
      have h' : (s.modifySlot id f).slot? id = some (f t) := by simp [h]
      rw [modifySlot_of_some h', modifySlot_of_some h, modifySlot_of_some h, write_write]

/-- Only what a change does to the slot at hand matters. -/
theorem modifySlot_congr {s : Store} {id : InstId} {slot : Slot} {f g : Slot → Slot}
    (hslot : s.slot? id = some slot) (h : f slot = g slot) :
    s.modifySlot id f = s.modifySlot id g := by
  rw [modifySlot_of_some hslot, modifySlot_of_some hslot, h]

/-- A change that changes nothing leaves the store as it is. -/
theorem modifySlot_eq_self {s : Store} {id : InstId} {slot : Slot} {f : Slot → Slot}
    (hslot : s.slot? id = some slot) (h : f slot = slot) : s.modifySlot id f = s := by
  obtain ⟨e, he, hnode, hlive, hhold⟩ := slot?_eq_some_iff.mp hslot
  have hnodes : s.nodes.setIfInBounds e.node slot.toNode = s.nodes := by
    obtain ⟨hlt, hn⟩ := Array.getElem?_eq_some_iff.mp hnode
    rw [← hn, Array.setIfInBounds_def, dif_pos hlt, Array.set_getElem_self]
  have hself : { e with live := slot.live, hold := slot.hold } = e := by rw [← hlive, ← hhold]
  have hslots : (s.slots.modify id.index.toNat fun e =>
      { e with live := slot.live, hold := slot.hold }) = s.slots := by
    obtain ⟨n, hn, rfl, rfl⟩ := Arena.find?_eq_some_iff.mp he
    refine Array.ext_getElem? fun m => ?_
    rw [Array.getElem?_modify, Int.toNat_natCast]
    split
    · next heq => rw [← heq, Array.getElem?_eq_getElem hn, Option.map_some, hself]
    · rfl
  rw [modifySlot_of_some hslot, h, Arena.write, he]
  simp [hnodes, hslots]

end Store

/-- A change of a slot that passes by the record is an update with no access inside. -/
theorem editSlot_eq_update {f : Slot → Slot}
    (hf : ∀ slot hold, f (slot.withHold hold) = (f slot).withHold hold) (id : InstId) :
    editSlot id f = update id fun _ => modifyStore (·.modifySlot id f) := by
  funext w
  cases hslot : w.store.slot? id with
  | none => simp [editSlot, update, bind, EStateM.bind, getSlot_of_none hslot]
  | some slot =>
      rcases hhold : slot.hold with (_ | n) | _
      · have hkeep : f slot = (f (slot.withHold .exclusive)).withHold (.shared 0) :=
          calc f slot = f (slot.withHold (.shared 0)) := by rw [← hhold, Slot.withHold_hold]
            _ = (f (slot.withHold .exclusive)).withHold (.shared 0) := by
              rw [hf, hf, Slot.withHold_withHold]
        have hslots : w.store.modifySlot id f =
            w.store.modifySlot id fun s => (f (s.withHold .exclusive)).withHold (.shared 0) :=
          Store.modifySlot_congr hslot hkeep
        simp only [editSlot, update, bind, EStateM.bind, getSlot_of_some hslot, allowUpdate, hhold,
          pure, EStateM.pure, run_modifyStore, run_modify, thenAlways, setHold,
          Store.modifySlot_modifySlot, hslots]
        rfl
      all_goals
        simp [editSlot, update, bind, EStateM.bind, getSlot_of_some hslot, allowUpdate, hhold,
          run_throw]

/-- A look at a slot that passes by the record is a view with no access inside. -/
theorem readSlot_eq_view {α : Type} {f : Slot → α}
    (hf : ∀ slot hold, f (slot.withHold hold) = f slot) (id : InstId) :
    readSlot id f = view id fun _ => f <$> getSlot id := by
  funext w
  cases hslot : w.store.slot? id with
  | none => simp [readSlot, view, bind, EStateM.bind, getSlot_of_none hslot]
  | some slot =>
      cases hhold : slot.hold with
      | exclusive =>
          simp [readSlot, view, bind, EStateM.bind, getSlot_of_some hslot, allowView, hhold,
            run_throw]
      | shared n =>
          have hopen : (setHold id (fun _ => .shared (n + 1)) w).store.slot? id =
              some (slot.withHold (.shared (n + 1))) := by simp [setHold, hslot, Slot.withHold]
          have hkeep : slot.withHold (Hold.unview (.shared (n + 1))) = slot := by
            rw [Hold.unview, ← hhold, Slot.withHold_hold]
          have hslots : w.store.modifySlot id
              (fun s => s.withHold (Hold.unview (.shared (n + 1)))) = w.store :=
            Store.modifySlot_eq_self hslot hkeep
          have hback : setHold id Hold.unview (setHold id (fun _ => .shared (n + 1)) w) = w := by
            unfold setHold
            simp only [Store.modifySlot_modifySlot]
            exact congrArg (fun s => { w with store := s }) hslots
          simp [readSlot, view, bind, EStateM.bind, getSlot_of_some hslot, allowView, hhold, pure,
            EStateM.pure, run_modify, thenAlways, Functor.map, EStateM.map, getSlot_of_some hopen,
            hback, hf]

/-! ## Scripts -/

/-- Changes an instruction without a check, as the body of an update may do with its own. -/
def assign (id : InstId) (f : Inst → Inst) : Action Unit :=
  modifyStore (·.modifySlot id fun s => { s with inst := f s.inst })

/-- What can be done with a store apart from opening an access. -/
inductive Operation where
  | look (id : InstId)
  | isLive (id : InstId)
  | ends
  | lookup (name : String)
  | assign (id : InstId) (f : Inst → Inst)
  | append (n : Newcomer)
  | prepend (n : Newcomer)
  | unlink (id : InstId)

namespace Operation

/-- What an operation answers. -/
def Answer : Operation → Type
  | look _ => Slot
  | isLive _ => Bool
  | ends => Option InstId × Option InstId
  | lookup _ => Option InstId
  | assign _ _ => Unit
  | append _ => InstId
  | prepend _ => InstId
  | unlink _ => Unit

/-- Carries out an operation. -/
def run : (o : Operation) → Action o.Answer
  | look id => readSlot id fun s => s
  | isLive id => Straightline.isLive id
  | ends => do pure ((← get).store.head, (← get).store.tail)
  | lookup name => do pure ((← get).store.lookup name)
  | assign id f => Straightline.assign id f
  | append n => Straightline.append n
  | prepend n => Straightline.prepend n
  | unlink id => Straightline.unlink id

end Operation

/-- Work on a store with results of type `σ`. What comes next may depend on every answer so far. -/
inductive Script (σ : Type) where
  | done (result : σ)
  | panic (e : Fault)
  | perform (o : Operation) (next : o.Answer → Script σ)
  | access (a : Access) (id : InstId) (body : Inst → Script σ) (next : σ → Script σ)
  | attempt (body : Script σ) (next : Except Fault σ → Script σ)

/-- Makes a result of a fault. -/
def caught {α : Type} (x : Action α) : Action (Except Fault α) := fun w =>
  match x w with
  | .ok a w' => .ok (.ok a) w'
  | .error e w' => .ok (.error e) w'

/-- Runs a script. -/
def Script.run {σ : Type} : Script σ → Action σ
  | done result => pure result
  | panic e => throw e
  | perform o next => do
    let answer ← o.run
    (next answer).run
  | access a id body next => do
    let result ← request a id fun i => (body i).run
    (next result).run
  | attempt body next => do
    let result ← caught body.run
    (next result).run

/-! ## The machine -/

/-- What waits for the end of a body. -/
inductive Frame (σ : Type) where
  | leave (a : Access) (id : InstId) (next : σ → Script σ)
  | recover (next : Except Fault σ → Script σ)

/-- A moment of a run: what waits, the innermost first, what is to be done next, and the
workspace. -/
structure Config (σ : Type) where
  stack : List (Frame σ)
  control : Script σ
  workspace : Workspace

namespace Config

variable {σ : Type}

/-- One operation, one entry, or one exit. A fault leaves one body after the other until a handler
is found. -/
inductive Step : Config σ → Config σ → Prop where
  | perform {stack : List (Frame σ)} {o : Operation} {next : o.Answer → Script σ} {w w' : Workspace}
      {answer : o.Answer} (h : o.run w = .ok answer w') :
      Step ⟨stack, .perform o next, w⟩ ⟨stack, next answer, w'⟩
  | performFault {stack : List (Frame σ)} {o : Operation} {next : o.Answer → Script σ}
      {w w' : Workspace} {e : Fault} (h : o.run w = .error e w') :
      Step ⟨stack, .perform o next, w⟩ ⟨stack, .panic e, w'⟩
  | enter {stack : List (Frame σ)} {a : Access} {id : InstId} {body : Inst → Script σ}
      {next : σ → Script σ} {w w' : Workspace} {i : Inst} (h : acquire a id w = .ok i w') :
      Step ⟨stack, .access a id body next, w⟩ ⟨.leave a id next :: stack, body i, w'⟩
  | enterFault {stack : List (Frame σ)} {a : Access} {id : InstId} {body : Inst → Script σ}
      {next : σ → Script σ} {w w' : Workspace} {e : Fault} (h : acquire a id w = .error e w') :
      Step ⟨stack, .access a id body next, w⟩ ⟨stack, .panic e, w'⟩
  | leave {stack : List (Frame σ)} {a : Access} {id : InstId} {next : σ → Script σ} {result : σ}
      {w : Workspace} :
      Step ⟨.leave a id next :: stack, .done result, w⟩ ⟨stack, next result, release a id w⟩
  | unwind {stack : List (Frame σ)} {a : Access} {id : InstId} {next : σ → Script σ} {e : Fault}
      {w : Workspace} :
      Step ⟨.leave a id next :: stack, .panic e, w⟩ ⟨stack, .panic e, release a id w⟩
  | attempt {stack : List (Frame σ)} {body : Script σ} {next : Except Fault σ → Script σ}
      {w : Workspace} : Step ⟨stack, .attempt body next, w⟩ ⟨.recover next :: stack, body, w⟩
  | finish {stack : List (Frame σ)} {next : Except Fault σ → Script σ} {result : σ}
      {w : Workspace} :
      Step ⟨.recover next :: stack, .done result, w⟩ ⟨stack, next (.ok result), w⟩
  | handle {stack : List (Frame σ)} {next : Except Fault σ → Script σ} {e : Fault} {w : Workspace} :
      Step ⟨.recover next :: stack, .panic e, w⟩ ⟨stack, next (.error e), w⟩

/-- Any number of steps. -/
def Steps : Config σ → Config σ → Prop := Relation.ReflTransGen Step

/-- The accesses that are open, the innermost first. -/
def opened (c : Config σ) : List (Access × InstId) :=
  c.stack.filterMap fun
    | .leave a id _ => some (a, id)
    | .recover _ => none

end Config

/-- Where a run of a script ends on a machine with a stack: with the stack as it was, and the result
or the fault. -/
def Config.ending {σ : Type} (stack : List (Frame σ)) : EStateM.Result Fault Workspace σ → Config σ
  | .ok result w => ⟨stack, .done result, w⟩
  | .error e w => ⟨stack, .panic e, w⟩

open Config

/-- The machine runs an access if it runs its body and what comes next. -/
theorem Script.steps_access {σ : Type} {a : Access} {id : InstId} {body : Inst → Script σ}
    {next : σ → Script σ}
    (hbody : ∀ i stack w, Steps ⟨stack, body i, w⟩ (ending stack ((body i).run w)))
    (hnext : ∀ r stack w, Steps ⟨stack, next r, w⟩ (ending stack ((next r).run w)))
    (stack : List (Frame σ)) (w : Workspace) :
    Steps ⟨stack, .access a id body next, w⟩ (ending stack ((do
      let i ← acquire a id
      let result ← thenAlways (body i).run (release a id)
      (next result).run : Action σ) w)) := by
  -- the body runs above the frame of its access, and the frame goes however the body ends
  cases hacquire : acquire a id w with
  | error e w' =>
      simp only [bind, EStateM.bind, hacquire]
      exact .single (.enterFault hacquire)
  | ok i w' =>
      simp only [bind, EStateM.bind, hacquire, thenAlways]
      have henter : Step ⟨stack, .access a id body next, w⟩
          ⟨.leave a id next :: stack, body i, w'⟩ := .enter hacquire
      have hin := hbody i (.leave a id next :: stack) w'
      cases hrun : (body i).run w' with
      | ok result w'' =>
          rw [hrun] at hin
          exact .head henter (hin.trans (.head .leave (hnext result stack _)))
      | error e w'' =>
          rw [hrun] at hin
          exact .head henter (hin.trans (.single .unwind))

/-- The machine ends where the run of the script ends. -/
theorem Script.steps_run {σ : Type} (s : Script σ) (stack : List (Frame σ)) (w : Workspace) :
    Steps ⟨stack, s, w⟩ (ending stack (s.run w)) := by
  induction s generalizing stack w with
  | done result => exact .refl
  | panic e => exact .refl
  | perform o next ih =>
      rw [Script.run]
      cases hrun : o.run w with
      | ok answer w' =>
          simp only [bind, EStateM.bind, hrun]
          exact .head (.perform hrun) (ih answer stack w')
      | error e w' =>
          simp only [bind, EStateM.bind, hrun]
          exact .single (.performFault hrun)
  | access a id body next ihb ihn =>
      rw [Script.run, request_eq, bind_assoc]
      exact Script.steps_access ihb ihn stack w
  | attempt body next ihb ihn =>
      rw [Script.run]
      have hin := ihb (.recover next :: stack) w
      simp only [bind, EStateM.bind, caught]
      cases hrun : body.run w with
      | ok result w' =>
          rw [hrun] at hin
          exact .head .attempt (hin.trans (.head .finish (ihn (.ok result) stack w')))
      | error e w' =>
          rw [hrun] at hin
          exact .head .attempt (hin.trans (.head .handle (ihn (.error e) stack w')))

/-! ## What a slot records -/

namespace Store

/-- The accesses that a slot records; none where there is no slot. -/
def holdAt (s : Store) (id : InstId) : Hold := ((s.slot? id).map (·.hold)).getD (.shared 0)

/-- The record at an identity is that of its slot. -/
theorem holdAt_of_some {s : Store} {id : InstId} {slot : Slot} (h : s.slot? id = some slot) :
    s.holdAt id = slot.hold := by
  simp [holdAt, h]

/-- A change of a slot that leaves its record alone is not seen in any record. -/
theorem holdAt_modifySlot {f : Slot → Slot} (hf : ∀ slot, (f slot).hold = slot.hold) (s : Store)
    (id other : InstId) : (s.modifySlot id f).holdAt other = s.holdAt other := by
  by_cases h : other = id
  · simp [holdAt, h, Function.comp_def, hf]
  · rw [holdAt, hold_modifySlot_of_ne s f h, holdAt]

/-- A new slot records nothing, so it is not seen either. -/
theorem holdAt_push {s t : Store} {node : Nat} (h : t.slots = s.slots.push { node }) (id : InstId) :
    t.holdAt id = s.holdAt id := by
  rw [holdAt, holdAt, map_hold_slot?, map_hold_slot?, Arena.find?_push h]
  split
  · next hid =>
      subst hid
      simp [Arena.find?_natCast]
  · rfl

/-- An identity that shares a node takes no record away. -/
theorem holdAt_share (s : Store) (old id : InstId) :
    ({ s with toArena := s.share old } : Store).holdAt id = s.holdAt id := by
  cases he : s.find? old with
  | none => rw [Arena.share_of_none he]
  | some e => exact holdAt_push (Arena.slots_share_of_some he) id

end Store

/-- A new record is seen at its slot, unless there is no such slot. -/
theorem holdAt_setHold {f : Hold → Hold} {w : Workspace} {id : InstId}
    (h : f (.shared 0) = .shared 0 ∨ (w.store.slot? id).isSome) (other : InstId) :
    (setHold id f w).store.holdAt other =
      if other = id then f (w.store.holdAt id) else w.store.holdAt other := by
  split
  · next heq =>
      subst heq
      cases hslot : w.store.slot? other with
      | some slot => simp [setHold, Store.holdAt, hslot]
      | none =>
          rw [hslot] at h
          simpa [setHold, Store.holdAt, hslot, eq_comm] using h
  · next hne => simp [setHold, Store.holdAt, Store.hold_modifySlot_of_ne _ _ hne]

/-- The records stand aside from what the insertions and the links change. -/
theorem aside_holdAt : Aside fun w => w.store.holdAt where
  slot w id _ hf := funext fun other => w.store.holdAt_modifySlot hf id other
  fill _ _ := funext fun id => Store.holdAt_push rfl id
  share w old := funext fun id => w.store.holdAt_share old id
  head _ _ := rfl
  tail _ _ := rfl
  journal _ _ := rfl

/-- The action changes no record, however it ends. -/
def Quiet {α : Type} (x : Action α) : Prop :=
  ∀ w id, (leaves x w).store.holdAt id = w.store.holdAt id

/-- What keeps the records of all slots is quiet. -/
theorem Keeps.quiet {α : Type} {x : Action α} (h : Keeps (fun w => w.store.holdAt) x) : Quiet x :=
  fun w => congrFun (h w)

/-- No operation changes what a slot records, not even one that stops half-way. -/
theorem Operation.quiet (o : Operation) : Quiet o.run := by
  apply Keeps.quiet
  cases o with
  | look id => exact .readSlot id _
  | isLive id => exact .isLive id
  | ends => exact .bind .get fun _ => .bind .get fun _ => .pure _
  | lookup name => exact .bind .get fun _ => .pure _
  | assign id f => exact .modifySlot aside_holdAt.toAsideSlots id fun _ => rfl
  | append n => exact .append aside_holdAt n
  | prepend n => exact .prepend aside_holdAt n
  | unlink id => exact .unlink aside_holdAt id

/-! ## Conflicts -/

/-- What a slot has to record for the open accesses. -/
def holdOf (opened : List (Access × InstId)) (id : InstId) : Hold :=
  if (.update, id) ∈ opened then .exclusive else .shared (opened.count (.view, id))

/-- Each slot records the open accesses to it, and an update is the only access to its slot. -/
structure Matches (opened : List (Access × InstId)) (w : Workspace) : Prop where
  hold (id : InstId) : w.store.holdAt id = holdOf opened id
  alone : opened.Pairwise fun x y => x.2 = y.2 → x.1 = .view ∧ y.1 = .view

/-- What is open and stands in the way of an access. -/
def Conflicts (opened : List (Access × InstId)) (wanted : Access) (id : InstId) (held : Access) :
    Prop :=
  (held, id) ∈ opened ∧ (wanted = .update ∨ held = .update)

section HoldOf

variable {opened : List (Access × InstId)} {a : Access} {id other : InstId}

/-- An access to another slot is not recorded here. -/
theorem holdOf_cons_of_ne (h : other ≠ id) :
    holdOf ((a, id) :: opened) other = holdOf opened other := by
  simp [holdOf, h, Ne.symm h]

/-- An update that begins makes the record exclusive. -/
theorem holdOf_update_cons : holdOf ((.update, id) :: opened) id = .exclusive := by
  simp [holdOf]

/-- A view that begins is counted where there is no update. -/
theorem holdOf_view_cons (h : (.update, id) ∉ opened) :
    holdOf ((.view, id) :: opened) id = .shared (opened.count (.view, id) + 1) := by
  simp [holdOf, h]

/-- The record of an updated slot is exclusive. -/
theorem holdOf_of_update (h : (.update, id) ∈ opened) : holdOf opened id = .exclusive := if_pos h

/-- Without an update the record counts the views. -/
theorem holdOf_of_no_update (h : (.update, id) ∉ opened) :
    holdOf opened id = .shared (opened.count (.view, id)) := if_neg h

/-- A slot without accesses is free. -/
theorem holdOf_of_free (h : ∀ a, (a, id) ∉ opened) : holdOf opened id = .shared 0 := by
  rw [holdOf_of_no_update (h .update), List.count_eq_zero_of_not_mem (h .view)]

end HoldOf

/-- There is no access where there is no slot. -/
theorem acquire_of_none {w : Workspace} {id : InstId} (h : w.store.slot? id = none) (a : Access) :
    acquire a id w = .error (.invalid id) w := by
  cases a <;> simp [acquire, bind, EStateM.bind, getSlot_of_none h]

namespace Matches

variable {opened : List (Access × InstId)} {w : Workspace} {a held : Access} {id : InstId}
  {slot : Slot}

/-- The record of a slot is that of the open accesses. -/
theorem hold_of_some (hm : Matches opened w) (hslot : w.store.slot? id = some slot) :
    slot.hold = holdOf opened id := by
  rw [← hm.hold id, Store.holdAt_of_some hslot]

/-- A slot on which an access is open exists. -/
theorem isSome_of_mem (hm : Matches opened w) (h : (a, id) ∈ opened) :
    (w.store.slot? id).isSome := by
  by_contra hnone
  have hzero : holdOf opened id = .shared 0 := by
    rw [← hm.hold id, Store.holdAt, Option.not_isSome_iff_eq_none.mp hnone]
    rfl
  cases a with
  | update => simp [holdOf_of_update h] at hzero
  | view =>
      unfold holdOf at hzero
      split at hzero
      · cases hzero
      · exact List.count_eq_zero.mp (Hold.shared.inj hzero) h

/-- A slot that is viewed is not updated. -/
theorem no_update_of_view (hm : Matches opened w) (h : (.view, id) ∈ opened) :
    (.update, id) ∉ opened := by
  intro hupdate
  have hsymm : Std.Symm fun x y : Access × InstId => x.2 = y.2 → x.1 = .view ∧ y.1 = .view :=
    ⟨fun x y hxy heq => (hxy heq.symm).symm⟩
  have hboth := hm.alone.forall h hupdate (by simp) rfl
  cases hboth.2

/-- An access in whose way another one stands is refused, and the fault names both. -/
theorem acquire_of_conflict (hm : Matches opened w) (hc : Conflicts opened a id held) :
    acquire a id w = .error (.aliasing id a held) w := by
  obtain ⟨slot, hslot⟩ := Option.isSome_iff_exists.mp (hm.isSome_of_mem hc.1)
  have hhold := hm.hold_of_some hslot
  cases held with
  | update =>
      rw [holdOf_of_update hc.1] at hhold
      cases a <;> simp [acquire, bind, EStateM.bind, getSlot_of_some hslot, allowView, allowUpdate,
        hhold, run_throw]
  | view =>
      obtain ⟨hmem, rfl | hheld⟩ := hc
      · obtain ⟨n, hn⟩ := Nat.exists_eq_add_of_lt (List.count_pos_iff.mpr hmem)
        rw [holdOf_of_no_update (hm.no_update_of_view hmem), hn] at hhold
        simp [acquire, bind, EStateM.bind, getSlot_of_some hslot, allowUpdate, hhold, run_throw]
      · cases hheld

/-- An access that nothing stands in the way of is granted, and recorded. -/
theorem acquire_of_free (hm : Matches opened w) (hslot : w.store.slot? id = some slot)
    (hfree : ∀ held, ¬ Conflicts opened a id held) :
    ∃ w', acquire a id w = .ok slot.inst w' ∧ Matches ((a, id) :: opened) w' := by
  have hhold := hm.hold_of_some hslot
  have hsome : (w.store.slot? id).isSome := by simp [hslot]
  cases a with
  | view =>
      have hno : (.update, id) ∉ opened := fun h => hfree .update ⟨h, .inr rfl⟩
      rw [holdOf_of_no_update hno] at hhold
      refine ⟨setHold id (fun _ => .shared (opened.count (.view, id) + 1)) w, ?_,
        fun other => ?_, ?_⟩
      · simp [acquire, bind, EStateM.bind, getSlot_of_some hslot, allowView, hhold, pure,
          EStateM.pure, run_modify]
      · rw [holdAt_setHold (.inr hsome)]
        split
        · next heq => rw [heq, holdOf_view_cons hno]
        · next hne => rw [holdOf_cons_of_ne hne, hm.hold]
      · refine List.pairwise_cons.mpr ⟨fun y hy heq => ⟨rfl, ?_⟩, hm.alone⟩
        obtain ⟨access, other⟩ := y
        cases access with
        | view => rfl
        | update =>
            cases heq
            exact absurd hy hno
  | update =>
      have hno : ∀ access, (access, id) ∉ opened := fun access h => hfree access ⟨h, .inl rfl⟩
      rw [holdOf_of_free hno] at hhold
      refine ⟨setHold id (fun _ => .exclusive) w, ?_, fun other => ?_, ?_⟩
      · simp [acquire, bind, EStateM.bind, getSlot_of_some hslot, allowUpdate, hhold, pure,
          EStateM.pure, run_modify]
      · rw [holdAt_setHold (.inr hsome)]
        split
        · next heq => rw [heq, holdOf_update_cons]
        · next hne => rw [holdOf_cons_of_ne hne, hm.hold]
      · refine List.pairwise_cons.mpr ⟨fun y hy heq => ?_, hm.alone⟩
        cases heq
        exact absurd hy (hno y.1)

/-- The exit takes away what the entry recorded. -/
theorem release (hm : Matches ((a, id) :: opened) w) : Matches opened (release a id w) := by
  obtain ⟨hfirst, halone⟩ := List.pairwise_cons.mp hm.alone
  refine ⟨fun other => ?_, halone⟩
  -- what stays open below a view are views, so one fewer is right; below an update stays nothing
  cases a with
  | view =>
      have hno : (.update, id) ∉ opened := fun h => by cases (hfirst _ h rfl).2
      rw [Straightline.release, holdAt_setHold (.inl rfl)]
      split
      · next heq => rw [heq, hm.hold, holdOf_view_cons hno, holdOf_of_no_update hno, Hold.unview]
      · next hne => rw [hm.hold, holdOf_cons_of_ne hne]
  | update =>
      have hno : ∀ access, (access, id) ∉ opened := fun access h => by cases (hfirst _ h rfl).1
      rw [Straightline.release, holdAt_setHold (.inl rfl)]
      split
      · next heq => rw [heq, holdOf_of_free hno]
      · next hne => rw [hm.hold, holdOf_cons_of_ne hne]

/-- An action that changes no record keeps the records right. -/
theorem quiet {α : Type} {x : Action α} (hx : Quiet x) (hm : Matches opened w) :
    Matches opened (leaves x w) :=
  ⟨fun id => (hx w id).trans (hm.hold id), hm.alone⟩

/-- Exactly when an entry is a fault, and which one. -/
theorem acquire_error_iff (hm : Matches opened w) {e : Fault} {w' : Workspace} :
    acquire a id w = .error e w' ↔
      w' = w ∧ ((w.store.slot? id = none ∧ e = .invalid id) ∨
        ∃ held, Conflicts opened a id held ∧ e = .aliasing id a held) := by
  cases hslot : w.store.slot? id with
  | none =>
      have hfree : ∀ held, ¬ Conflicts opened a id held := fun held hc => by
        simpa [hslot] using hm.isSome_of_mem hc.1
      simp [acquire_of_none hslot, hfree, eq_comm, and_comm]
  | some slot =>
      by_cases hc : ∃ held, Conflicts opened a id held
      · obtain ⟨held, hc⟩ := hc
        have hunique : ∀ other, Conflicts opened a id other → other = held := fun other ho => by
          have h := (hm.acquire_of_conflict hc).symm.trans (hm.acquire_of_conflict ho)
          simpa [eq_comm] using h
        rw [hm.acquire_of_conflict hc]
        constructor
        · rintro ⟨⟩
          exact ⟨rfl, .inr ⟨held, hc, rfl⟩⟩
        · rintro ⟨rfl, ⟨h, -⟩ | ⟨other, ho, rfl⟩⟩
          · cases h
          · rw [hunique other ho]
      · have hfree := not_exists.mp hc
        obtain ⟨w'', hrun, -⟩ := hm.acquire_of_free hslot hfree
        simp [hrun, hfree]

end Matches

/-- The entry that was granted is recorded. -/
theorem Matches.acquire_ok {opened : List (Access × InstId)} {w w' : Workspace} {a : Access}
    {id : InstId} {i : Inst} (hm : Matches opened w) (h : acquire a id w = .ok i w') :
    Matches ((a, id) :: opened) w' := by
  cases hslot : w.store.slot? id with
  | none => simp [acquire_of_none hslot] at h
  | some slot =>
      have hfree : ∀ held, ¬ Conflicts opened a id held := fun held hc => by
        simp [hm.acquire_of_conflict hc] at h
      obtain ⟨w'', hrun, hm'⟩ := hm.acquire_of_free hslot hfree
      rw [hrun] at h
      cases h
      exact hm'

/-! ## Along a run -/

section Discipline

variable {σ : Type}

/-- One step keeps the records right. -/
theorem Config.Step.matches {c c' : Config σ} (hstep : Step c c')
    (hm : Matches c.opened c.workspace) : Matches c'.opened c'.workspace := by
  cases hstep with
  | perform h => exact leaves_of_ok h ▸ hm.quiet (Operation.quiet _)
  | performFault h => exact leaves_of_error h ▸ hm.quiet (Operation.quiet _)
  | enter h => exact hm.acquire_ok h
  | enterFault h =>
      obtain ⟨rfl, -⟩ := hm.acquire_error_iff.mp h
      exact hm
  | leave => exact hm.release
  | unwind => exact hm.release
  | attempt => exact hm
  | finish => exact hm
  | handle => exact hm

/-- So do any number of steps. -/
theorem Config.Steps.matches {c c' : Config σ} (hsteps : Steps c c')
    (hm : Matches c.opened c.workspace) : Matches c'.opened c'.workspace := by
  induction hsteps with
  | refl => exact hm
  | tail _ hstep ih => exact hstep.matches ih

/-- What holds at each moment: the counter of a slot is the number of its open views, or -1 if an
update is open; an entry is a fault where there is no slot, or where an open access conflicts with
it, and for no other reason; the body of an access that is in conflict does not run; a look at a
slot is a fault where a view is, and a change of one where an update is. -/
structure Config.Disciplined (c : Config σ) : Prop where
  counter {id : InstId} {slot : Slot} (h : c.workspace.store.slot? id = some slot) :
    slot.hold.counter =
      if (.update, id) ∈ c.opened then -1 else (c.opened.count (.view, id) : Int)
  refused (a : Access) (id : InstId) (e : Fault) (w : Workspace) :
    acquire a id c.workspace = .error e w ↔
      w = c.workspace ∧ ((c.workspace.store.slot? id = none ∧ e = .invalid id) ∨
        ∃ held, (held, id) ∈ c.opened ∧ (a = .update ∨ held = .update) ∧ e = .aliasing id a held)
  conflict {α : Type} {a held : Access} {id : InstId} (body : Inst → Action α)
    (hopen : (held, id) ∈ c.opened) (hexclusive : a = .update ∨ held = .update) :
    request a id body c.workspace = .error (.aliasing id a held) c.workspace
  look {α : Type} (id : InstId) (f : Slot → α) (e : Fault) (w : Workspace) :
    readSlot id f c.workspace = .error e w ↔ acquire .view id c.workspace = .error e w
  change (id : InstId) (f : Slot → Slot) (e : Fault) (w : Workspace) :
    editSlot id f c.workspace = .error e w ↔ acquire .update id c.workspace = .error e w

/-- Looking at a slot is refused when a view is. -/
theorem readSlot_error_iff {α : Type} {id : InstId} {f : Slot → α} {w w' : Workspace} {e : Fault} :
    readSlot id f w = .error e w' ↔ acquire .view id w = .error e w' := by
  cases hslot : w.store.slot? id with
  | none => simp [readSlot, acquire, bind, EStateM.bind, getSlot_of_none hslot]
  | some slot =>
      cases hhold : slot.hold <;>
        simp [readSlot, acquire, bind, EStateM.bind, getSlot_of_some hslot, allowView, hhold, pure,
          EStateM.pure, run_throw, run_modify]

/-- Changing a slot is refused when an update is. -/
theorem editSlot_error_iff {id : InstId} {f : Slot → Slot} {w w' : Workspace} {e : Fault} :
    editSlot id f w = .error e w' ↔ acquire .update id w = .error e w' := by
  cases hslot : w.store.slot? id with
  | none => simp [editSlot, acquire, bind, EStateM.bind, getSlot_of_none hslot]
  | some slot =>
      rcases hhold : slot.hold with (_ | n) | _ <;>
        simp [editSlot, acquire, bind, EStateM.bind, getSlot_of_some hslot, allowUpdate, hhold,
          pure, EStateM.pure, run_throw, run_modifyStore, run_modify]

/-- The record as one number: the views, or -1 for an update. -/
theorem counter_holdOf (opened : List (Access × InstId)) (id : InstId) :
    (holdOf opened id).counter =
      if (.update, id) ∈ opened then -1 else (opened.count (.view, id) : Int) := by
  unfold holdOf
  split <;> rfl

/-- Where the records match the open accesses, these are disciplined. -/
theorem Config.disciplined_of_matches {c : Config σ} (hm : Matches c.opened c.workspace) :
    c.Disciplined where
  counter h := by rw [hm.hold_of_some h, counter_holdOf]
  refused a id e w := by simpa only [Conflicts, and_assoc] using hm.acquire_error_iff
  conflict body hopen hexclusive := by
    rw [request_eq]
    simp only [bind, EStateM.bind, hm.acquire_of_conflict ⟨hopen, hexclusive⟩]
  look _ _ _ _ := readSlot_error_iff
  change _ _ _ _ := editSlot_error_iff

end Discipline

/-- No access is in progress. -/
def Workspace.Idle (w : Workspace) : Prop :=
  ∀ id slot, w.store.slot? id = some slot → slot.hold.counter = 0

/-- A workspace is idle if its records match no access at all. -/
theorem idle_iff_matches {w : Workspace} : w.Idle ↔ Matches [] w := by
  constructor
  · intro h
    refine ⟨fun id => ?_, .nil⟩
    cases hslot : w.store.slot? id with
    | none => simp [Store.holdAt, hslot, holdOf]
    | some slot =>
        have hzero := h id slot hslot
        rw [Store.holdAt_of_some hslot]
        rcases hhold : slot.hold with views | _
        · rw [hhold] at hzero
          simp [holdOf, Int.natCast_eq_zero.mp hzero]
        · simp [hhold, Hold.counter] at hzero
  · intro hm id slot hslot
    rw [hm.hold_of_some hslot, counter_holdOf]
    rfl

/-- The discipline of accesses. Whatever a script does in a workspace where no access is in
progress, every moment of its run is disciplined. The run comes to its end with no access open, and
by then no counter shows one, whether the end is a result or a fault. -/
theorem accesses_disciplined {σ : Type} (s : Script σ) (w : Workspace) (h : w.Idle) :
    (∀ c, Steps ⟨[], s, w⟩ c → c.Disciplined) ∧
      Steps ⟨[], s, w⟩ (ending [] (s.run w)) ∧ (leaves s.run w).Idle := by
  have hm : ∀ c, Steps ⟨[], s, w⟩ c → Matches c.opened c.workspace := fun c hsteps =>
    hsteps.matches (idle_iff_matches.mp h)
  refine ⟨fun c hsteps => disciplined_of_matches (hm c hsteps), s.steps_run [] w, ?_⟩
  have hend := hm _ (s.steps_run [] w)
  unfold leaves
  cases hrun : s.run w <;> (rw [hrun] at hend; exact idle_iff_matches.mpr hend)

/-- Removes the second of two instructions while the first one is viewed. -/
def Script.removeNeighbour : Script Unit :=
  .perform (.append (.made ⟨"x", "add", [], []⟩)) fun first =>
    .perform (.append (.made ⟨"y", "mul", [], []⟩)) fun second =>
      .access .view first (fun _ => .perform (.unlink second) .done) .done

/-- Removing a neighbour that is viewed is a fault, and afterwards no access is in progress. -/
theorem accesses_disciplined_removeNeighbour :
    (∀ c, Steps ⟨[], Script.removeNeighbour, {}⟩ c → c.Disciplined) ∧
      ∃ w, Script.removeNeighbour.run {} = .error (.aliasing ⟨0⟩ .update .view) w ∧ w.Idle := by
  have hidle : Workspace.Idle {} := fun id slot h => by simp [Store.slot?] at h
  obtain ⟨hmoments, -, hend⟩ := accesses_disciplined Script.removeNeighbour {} hidle
  have hrun : ∃ w, Script.removeNeighbour.run {} = .error (.aliasing ⟨0⟩ .update .view) w :=
    ⟨_, rfl⟩
  obtain ⟨w, hrun⟩ := hrun
  exact ⟨hmoments, w, hrun, leaves_of_error hrun ▸ hend⟩

end Straightline
