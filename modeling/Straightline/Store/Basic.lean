import Straightline.Event
import Straightline.Fault
import Straightline.Inst
import Straightline.Pass.Basic

/-!
# The instruction store

Instructions are reached by identities. Each insertion creates a new slot, slots are never reused,
and the number of the slot is the identity, so an identity stays valid for good. What stands in a
slot is a node: an instruction with its place in the program order, which is a doubly linked list.
Each slot records for itself whether it is part of the order, and the accesses in progress on it.

Who inserts an instruction still has it afterwards and can insert it once more. Then two slots lead
to one node, and what changes at one identity shows at the other one. As long as that does not
happen the store is `Unshared`, and a change shows at its own identity only.

A `Workspace` is everything that work on a program changes: the store, the events so far, and the
pipeline with its counters. An `Action` is a step of that work. A fault ends the step but keeps the
workspace as it was left, so later steps see the partial effects.
-/

set_option autoImplicit false

namespace Straightline

/-- The accesses in progress on a slot: some number of views, or one update. -/
inductive Hold where
  | shared (views : Nat)
  | exclusive
deriving DecidableEq, Repr

/-- An instruction with its place in the program order. -/
structure Node where
  inst : Inst
  prev : Option InstId := none
  next : Option InstId := none
deriving DecidableEq, Repr

/-- Whether the instruction has a neighbour in the program order. -/
def Node.isLinked (n : Node) : Bool := n.prev.isSome || n.next.isSome

/-- What is kept for one identity: where its node is, and what the identity has for itself. -/
structure Entry where
  node : Nat
  live : Bool := true
  hold : Hold := .shared 0
deriving DecidableEq, Repr

/-- One slot of the store as it shows at its identity: the node, and what the slot records. -/
structure Slot extends Node where
  live : Bool := true
  hold : Hold := .shared 0
deriving DecidableEq, Repr

/-- Where there are no entries, all of them lead to nodes. -/
theorem inside_empty (n : Nat) (h : n < (#[] : Array Entry).size) :
    (#[] : Array Entry)[n].node < (#[] : Array Node).size :=
  absurd h (Nat.not_lt_zero _)

/-- The nodes, and the entries of all identities, which lead to them. -/
structure Arena where
  nodes : Array Node := #[]
  slots : Array Entry := #[]
  inside : ∀ n (h : n < slots.size), slots[n].node < nodes.size := by exact inside_empty
deriving DecidableEq, Repr

namespace Arena

/-- The entry of an identity, if it has been given out. -/
def find? (a : Arena) (id : InstId) : Option Entry :=
  if id.index < 0 then none else a.slots[id.index.toNat]?

/-- Writes the slot of an identity: the node to where the identity leads, the rest to its entry. -/
def write (a : Arena) (id : InstId) (t : Slot) : Arena :=
  match a.find? id with
  | none => a
  | some e => {
      nodes := a.nodes.setIfInBounds e.node t.toNode
      slots := a.slots.modify id.index.toNat fun e => { e with live := t.live, hold := t.hold }
      inside := fun n h => by
        have hn : n < a.slots.size := by simpa using h
        rw [Array.getElem_modify]
        split <;> simpa using a.inside n hn }

/-- A new identity for an instruction that has none. -/
def fill (a : Arena) (i : Inst) : Arena where
  nodes := a.nodes.push { inst := i }
  slots := a.slots.push { node := a.nodes.size }
  inside n h := by
    rw [Array.getElem_push]
    split
    · next hn => simpa using Nat.lt_succ_of_lt (a.inside n hn)
    · simp

/-- A new identity for the node that an identity leads to. -/
def share (a : Arena) (id : InstId) : Arena :=
  match h : a.find? id with
  | none => a
  | some e => {
      nodes := a.nodes
      slots := a.slots.push { node := e.node }
      inside := fun n hn => by
        have he : e ∈ a.slots := by
          unfold find? at h
          split at h
          · cases h
          · exact Array.mem_of_getElem? h
        obtain ⟨m, hm, rfl⟩ := Array.getElem_of_mem he
        rw [Array.getElem_push]
        split
        · next hlt => exact a.inside n hlt
        · exact a.inside m hm }

/-- Every identity has a node of its own. -/
structure Unshared (a : Arena) : Prop where
  size : a.nodes.size = a.slots.size
  own : ∀ n (h : n < a.slots.size), a.slots[n].node = n

/-- The identities that have been given out are the numbers of the slots. -/
theorem find?_natCast (a : Arena) (n : Nat) : a.find? ⟨n⟩ = a.slots[n]? := by
  simp [find?, Int.not_lt.mpr (Int.natCast_nonneg n)]

/-- The entries of the arena have the identities that are numbered from zero. -/
theorem find?_eq_some_iff {a : Arena} {id : InstId} {e : Entry} :
    a.find? id = some e ↔ ∃ (n : Nat) (h : n < a.slots.size), id = ⟨n⟩ ∧ a.slots[n] = e := by
  constructor
  · intro h
    unfold find? at h
    split at h
    · cases h
    · next hid =>
        obtain ⟨n, hn⟩ := Int.eq_ofNat_of_zero_le (Int.not_lt.mp hid)
        obtain ⟨hlt, he⟩ := Array.getElem?_eq_some_iff.mp h
        exact ⟨id.index.toNat, hlt, by cases id; simp_all, he⟩
  · rintro ⟨n, hn, rfl, rfl⟩
    rw [find?_natCast, Array.getElem?_eq_getElem hn]

/-- An identity that has been given out leads to a node. -/
theorem node_lt {a : Arena} {id : InstId} {e : Entry} (h : a.find? id = some e) :
    e.node < a.nodes.size := by
  obtain ⟨n, hn, -, rfl⟩ := find?_eq_some_iff.mp h
  exact a.inside n hn

/-- Without sharing an identity leads to the node of its number. -/
theorem Unshared.node_eq {a : Arena} {id : InstId} {e : Entry} (ha : a.Unshared)
    (h : a.find? id = some e) : id = ⟨e.node⟩ := by
  obtain ⟨n, hn, rfl, rfl⟩ := find?_eq_some_iff.mp h
  rw [ha.own n hn]

/-- Writing a slot changes the entry of its own identity only. -/
theorem find?_write (a : Arena) (id other : InstId) (t : Slot) :
    (a.write id t).find? other =
      if other = id then (a.find? id).map fun e => { e with live := t.live, hold := t.hold }
      else a.find? other := by
  unfold write
  split
  · next h =>
      split
      · next ho => rw [ho, h, Option.map_none]
      · rfl
  · next e h =>
      obtain ⟨n, hn, rfl, rfl⟩ := find?_eq_some_iff.mp h
      by_cases ho : other = ⟨n⟩
      · subst ho
        simp [find?_natCast, hn, Array.getElem_modify]
      · obtain ⟨m⟩ := other
        have hne : ¬ m < 0 → n ≠ m.toNat := fun hm e => ho (by rw [InstId.mk.injEq]; omega)
        simp only [find?, ho, if_false, Int.toNat_natCast, Array.getElem?_modify]
        split
        · rfl
        · next hm => rw [if_neg (hne hm)]

/-- Writing a slot writes the node that its identity leads to. -/
theorem nodes_write {a : Arena} {id : InstId} {e : Entry} (h : a.find? id = some e) (t : Slot) :
    (a.write id t).nodes = a.nodes.setIfInBounds e.node t.toNode := by
  simp only [write, h]

@[simp] theorem size_write (a : Arena) (id : InstId) (t : Slot) :
    (a.write id t).slots.size = a.slots.size := by
  unfold write
  split <;> simp

/-- What was not given out cannot be shared. -/
theorem share_of_none {a : Arena} {id : InstId} (h : a.find? id = none) : a.share id = a := by
  unfold share
  split
  · rfl
  · next he => rw [h] at he; cases he

/-- Sharing makes one entry, which leads to the same node. -/
theorem slots_share_of_some {a : Arena} {id : InstId} {e : Entry} (h : a.find? id = some e) :
    (a.share id).slots = a.slots.push { node := e.node } := by
  unfold share
  split
  · next he => rw [h] at he; cases he
  · next he =>
      rw [h] at he
      cases he
      rfl

/-- The entry of the next identity is the one that is put last. -/
theorem find?_push {a b : Arena} {e : Entry} (hb : b.slots = a.slots.push e) (id : InstId) :
    b.find? id = if id = ⟨a.slots.size⟩ then some e else a.find? id := by
  obtain ⟨n⟩ := id
  simp only [find?, hb, InstId.mk.injEq, Array.getElem?_push]
  by_cases hneg : n < 0
  · have : ¬ n = a.slots.size := by omega
    simp [hneg, this]
  · by_cases hn : n = a.slots.size
    · simp [hn]
    · have : ¬ n.toNat = a.slots.size := by omega
      simp [hneg, hn, this]

end Arena

/-- A program: its slots, the two ends of the program order, and the temporaries bound so far, the
latest binding first. -/
structure Store extends Arena where
  head : Option InstId := none
  tail : Option InstId := none
  temps : List (String × InstId) := []
deriving DecidableEq, Repr

namespace Store

/-- The slot of an identity, if there is one. -/
def slot? (s : Store) (id : InstId) : Option Slot := do
  let e ← s.find? id
  let n ← s.nodes[e.node]?
  some { toNode := n, live := e.live, hold := e.hold }

/-- Changes the slot of an identity. -/
def modifySlot (s : Store) (id : InstId) (f : Slot → Slot) : Store :=
  match s.slot? id with
  | none => s
  | some t => { s with toArena := s.write id (f t) }

/-- A slot is put together from the entry and the node it leads to. -/
theorem slot?_eq_some_iff {s : Store} {id : InstId} {t : Slot} :
    s.slot? id = some t ↔ ∃ e, s.find? id = some e ∧ s.nodes[e.node]? = some t.toNode ∧
      e.live = t.live ∧ e.hold = t.hold := by
  simp only [slot?, Option.bind_eq_bind, Option.bind_eq_some_iff, Option.some.injEq]
  constructor
  · rintro ⟨e, he, n, hn, rfl⟩
    exact ⟨e, he, hn, rfl, rfl⟩
  · rintro ⟨e, he, hn, hlive, hhold⟩
    exact ⟨e, he, t.toNode, hn, by rw [hlive, hhold]⟩

/-- An identity has a slot if it has been given out. -/
theorem exists_slot?_of_find? {s : Store} {id : InstId} {e : Entry} (h : s.find? id = some e) :
    ∃ t, s.slot? id = some t := by
  have hlt := Arena.node_lt h
  exact ⟨⟨s.nodes[e.node], e.live, e.hold⟩,
    slot?_eq_some_iff.mpr ⟨e, h, Array.getElem?_eq_getElem hlt, rfl, rfl⟩⟩

/-- There is a slot for every entry, and for nothing else. -/
theorem slot?_eq_none_iff {s : Store} {id : InstId} :
    s.slot? id = none ↔ s.find? id = none := by
  cases h : s.find? id with
  | none => simp [slot?, h]
  | some e =>
      obtain ⟨t, ht⟩ := exists_slot?_of_find? h
      simp [ht]

theorem modifySlot_of_some {s : Store} {id : InstId} {t : Slot} (h : s.slot? id = some t)
    (f : Slot → Slot) : s.modifySlot id f = { s with toArena := s.write id (f t) } := by
  simp only [modifySlot, h]

theorem modifySlot_of_none {s : Store} {id : InstId} (h : s.slot? id = none) (f : Slot → Slot) :
    s.modifySlot id f = s := by
  simp only [modifySlot, h]

/-- A change of a slot shows at its own identity. -/
@[simp] theorem slot?_modifySlot (s : Store) (id : InstId) (f : Slot → Slot) :
    (s.modifySlot id f).slot? id = (s.slot? id).map f := by
  cases h : s.slot? id with
  | none => rw [modifySlot_of_none h, h, Option.map_none]
  | some t =>
      obtain ⟨e, he, -, -, -⟩ := slot?_eq_some_iff.mp h
      rw [modifySlot_of_some h, Option.map_some, slot?_eq_some_iff]
      refine ⟨{ e with live := (f t).live, hold := (f t).hold }, ?_, ?_, rfl, rfl⟩
      · simp [Arena.find?_write, he]
      · simp [Arena.nodes_write he, Arena.node_lt he]

/-- A change of a slot shows at no other identity if nodes are not shared. -/
theorem slot?_modifySlot_of_ne {s : Store} (hs : s.Unshared) {id other : InstId}
    (f : Slot → Slot) (h : other ≠ id) : (s.modifySlot id f).slot? other = s.slot? other := by
  cases hid : s.slot? id with
  | none => rw [modifySlot_of_none hid]
  | some t =>
      obtain ⟨e, he, -, -, -⟩ := slot?_eq_some_iff.mp hid
      rw [modifySlot_of_some hid]
      simp only [slot?, Arena.find?_write, if_neg h, Arena.nodes_write he]
      cases hother : s.find? other with
      | none => rfl
      | some e' =>
          have hnode : e.node ≠ e'.node := fun hn =>
            h (by rw [hs.node_eq hother, hs.node_eq he, hn])
          simp only [Option.bind_eq_bind, Option.bind_some,
            Array.getElem?_setIfInBounds_ne hnode]

/-- The record of the accesses stands in the entry. -/
theorem map_hold_slot? (s : Store) (id : InstId) :
    (s.slot? id).map (·.hold) = (s.find? id).map (·.hold) := by
  cases hslot : s.slot? id with
  | none => rw [slot?_eq_none_iff.mp hslot, Option.map_none, Option.map_none]
  | some t =>
      obtain ⟨e, he, -, -, hhold⟩ := slot?_eq_some_iff.mp hslot
      rw [he, Option.map_some, Option.map_some, hhold]

/-- The record of the accesses is changed at its own identity only, whether or not nodes are
shared. -/
theorem hold_modifySlot_of_ne (s : Store) {id other : InstId} (f : Slot → Slot) (h : other ≠ id) :
    ((s.modifySlot id f).slot? other).map (·.hold) = (s.slot? other).map (·.hold) := by
  rw [map_hold_slot?, map_hold_slot?]
  cases hid : s.slot? id with
  | none => rw [modifySlot_of_none hid]
  | some t => rw [modifySlot_of_some hid, Arena.find?_write, if_neg h]

@[simp] theorem size_modifySlot (s : Store) (id : InstId) (f : Slot → Slot) :
    (s.modifySlot id f).slots.size = s.slots.size := by
  unfold modifySlot
  split <;> simp

@[simp] theorem head_modifySlot (s : Store) (id : InstId) (f : Slot → Slot) :
    (s.modifySlot id f).head = s.head := by
  unfold modifySlot
  split <;> rfl

@[simp] theorem tail_modifySlot (s : Store) (id : InstId) (f : Slot → Slot) :
    (s.modifySlot id f).tail = s.tail := by
  unfold modifySlot
  split <;> rfl

@[simp] theorem temps_modifySlot (s : Store) (id : InstId) (f : Slot → Slot) :
    (s.modifySlot id f).temps = s.temps := by
  unfold modifySlot
  split <;> rfl

/-- A store without shared nodes is known by its slots, its ends and its temporaries. -/
theorem ext_slot? {s t : Store} (hs : s.Unshared) (ht : t.Unshared)
    (hslot : ∀ id, s.slot? id = t.slot? id) (hhead : s.head = t.head) (htail : s.tail = t.tail)
    (htemps : s.temps = t.temps) : s = t := by
  have hentry : ∀ id, s.find? id = t.find? id := by
    intro id
    cases he : s.find? id with
    | none => rw [eq_comm, ← slot?_eq_none_iff, ← hslot, slot?_eq_none_iff, he]
    | some e =>
        obtain ⟨u, hu⟩ := exists_slot?_of_find? he
        obtain ⟨_, he', -, hlive, hhold⟩ := slot?_eq_some_iff.mp hu
        obtain ⟨e', ht', -, hlive', hhold'⟩ := slot?_eq_some_iff.mp (hslot id ▸ hu)
        cases he.symm.trans he'
        have hnode : e.node = e'.node :=
          Int.ofNat_inj.mp (congrArg InstId.index ((hs.node_eq he).symm.trans (ht.node_eq ht')))
        rw [ht', Option.some.injEq, Entry.mk.injEq]
        exact ⟨hnode, hlive.trans hlive'.symm, hhold.trans hhold'.symm⟩
  have hslots : s.slots = t.slots := Array.ext_getElem? fun n => by
    rw [← Arena.find?_natCast, ← Arena.find?_natCast, hentry]
  have hnodes : s.nodes = t.nodes := Array.ext (by rw [hs.size, ht.size, hslots]) fun n hn hn' => by
    have hlt : n < s.slots.size := hs.size ▸ hn
    have he : s.find? ⟨n⟩ = some s.slots[n] := by simp [Arena.find?_natCast]
    obtain ⟨u, hu⟩ := exists_slot?_of_find? he
    obtain ⟨e, he, hnode, -, -⟩ := slot?_eq_some_iff.mp hu
    obtain ⟨e', he', hnode', -, -⟩ := slot?_eq_some_iff.mp (hslot ⟨n⟩ ▸ hu)
    have hself : n = e.node := Int.ofNat_inj.mp (congrArg InstId.index (hs.node_eq he))
    have hself' : n = e'.node := Int.ofNat_inj.mp (congrArg InstId.index (ht.node_eq he'))
    rw [← hself, Array.getElem?_eq_getElem hn] at hnode
    rw [← hself', Array.getElem?_eq_getElem hn'] at hnode'
    exact Option.some.inj (hnode.trans hnode'.symm)
  have harena : s.toArena = t.toArena := by
    cases hs' : s.toArena
    cases ht' : t.toArena
    simp_all
  cases s
  cases t
  simp_all

/-- The identity that the next instruction will get. -/
def nextId (s : Store) : InstId := ⟨s.slots.size⟩

/-- The instruction that most recently defined a temporary. -/
def lookup (s : Store) (name : String) : Option InstId := s.temps.lookup name

end Store

/-- One line of the pass statistics: the number of instructions after a pass. -/
structure Measurement where
  phase : String
  round : Nat
  pass : String
  instructions : Nat
deriving DecidableEq, Repr

/-- What work on a program changes. -/
structure Workspace where
  store : Store := {}
  /-- Events, the oldest first. -/
  journal : Array Event := #[]
  /-- Optimisation phases started so far. -/
  phases : Nat := 0
  /-- The statistics, if they are collected. -/
  statistics : Option (Array Measurement) := none
  /-- The pipeline that was set up. -/
  pipeline : Option Pipeline := none
deriving DecidableEq, Repr

/-- A step of work on a program. -/
abbrev Action := EStateM Fault Workspace

/-- Reports an event. -/
def report (e : Event) : Action Unit := modify fun w => { w with journal := w.journal.push e }

/-- Changes the store. -/
def modifyStore (f : Store → Store) : Action Unit := modify fun w => { w with store := f w.store }

/-! How the elementary actions run. -/

theorem run_get (w : Workspace) : (get : Action Workspace) w = .ok w w := rfl

theorem run_modifyStore (f : Store → Store) (w : Workspace) :
    modifyStore f w = .ok () { w with store := f w.store } := rfl

theorem run_throw {α : Type} (e : Fault) (w : Workspace) :
    (throw e : Action α) w = .error e w := rfl

/-- The slot of an identity, or a fault. -/
def getSlot (id : InstId) : Action Slot := do
  match (← get).store.slot? id with
  | some s => pure s
  | none => throw (.invalid id)

/-- A slot that exists is found. -/
theorem getSlot_of_some {w : Workspace} {id : InstId} {s : Slot}
    (h : w.store.slot? id = some s) : getSlot id w = .ok s w := by
  simp [getSlot, bind, EStateM.bind, run_get, h, pure, EStateM.pure]

/-- An identity without a slot is a fault, and nothing changes. -/
theorem getSlot_of_none {w : Workspace} {id : InstId} (h : w.store.slot? id = none) :
    getSlot id w = .error (.invalid id) w := by
  simp [getSlot, bind, EStateM.bind, run_get, h, run_throw]

end Straightline
