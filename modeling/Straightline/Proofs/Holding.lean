import Mathlib.Data.List.Basic
import Mathlib.Data.List.Nodup
import Mathlib.Data.List.Perm.Subperm
import Straightline.Proofs.Program

/-!
# The program that a store holds

`Store.program` reads a store: the order by following the links from the head, and the instructions
slot by slot. `Holds s p` says that the store `s` is a sound representation of `p`: both directions
of the links agree with the order, a slot is marked live exactly when it is in the order, and no
access is in progress. A store that holds a program holds the one that it reads as, and two stores
that hold programs with the same order differ in instructions only.

The rest of the file is one lemma for each of the four ways in which the store is changed: the
instruction of a slot is replaced, an instruction is taken out of the order, or a new one is put at
either end.
-/

set_option autoImplicit false

namespace Straightline

namespace Store

/-- The instruction at an identity. -/
def instAt (s : Store) (id : InstId) : Inst :=
  match s.slot? id with
  | some t => t.inst
  | none => .blank

/-- The instructions along the links, for at most the given number of steps. -/
def orderFrom (s : Store) : Nat → Option InstId → List InstId
  | 0, _ => []
  | _, none => []
  | steps + 1, some id => id :: s.orderFrom steps ((s.slot? id).bind (·.next))

/-- The program order: the instructions from the head along the links. -/
def order (s : Store) : List InstId := s.orderFrom s.slots.size s.head

/-- The program in a store. -/
def program (s : Store) : Program where
  order := s.order
  size := s.slots.size
  inst := s.instAt

/-- The store represents the program, and no access is in progress. -/
structure Holds (s : Store) (p : Program) : Prop where
  unshared : s.Unshared
  size : s.slots.size = p.size
  inst : ∀ id, s.instAt id = p.inst id
  free : ∀ id t, s.slot? id = some t → t.hold = .shared 0
  live : ∀ id t, s.slot? id = some t → (t.live = true ↔ id ∈ p.order)
  nodup : p.order.Nodup
  known : ∀ id ∈ p.order, p.Known id
  head : s.head = p.order.head?
  tail : s.tail = p.order.getLast?
  linked : ∀ left id right, p.order = left ++ id :: right → ∀ t, s.slot? id = some t →
    t.prev = left.getLast? ∧ t.next = right.head?
  loose : ∀ id t, s.slot? id = some t → id ∉ p.order → t.prev = none ∧ t.next = none

/-- An identity has a slot exactly when it has been given out. -/
theorem isSome_slot?_iff (s : Store) (id : InstId) :
    (s.slot? id).isSome ↔ 0 ≤ id.index ∧ id.index < s.slots.size := by
  have hentry : (s.slot? id).isSome ↔ (s.find? id).isSome := by
    rw [Option.isSome_iff_ne_none, Option.isSome_iff_ne_none, ne_eq, ne_eq, slot?_eq_none_iff]
  rw [hentry]
  unfold Arena.find?
  split
  · simp; omega
  · simp
    omega

/-- A new instruction shows at its own identity. -/
theorem slot?_fill (s : Store) (i : Inst) (id : InstId) :
    { s with toArena := s.fill i }.slot? id =
      if id = s.nextId then some { inst := i } else s.slot? id := by
  have hentry : (s.fill i).find? id = if id = s.nextId then some _ else s.find? id :=
    Arena.find?_push rfl id
  rw [slot?, hentry]
  split
  · simp [Arena.fill]
  · rw [slot?]
    cases he : s.find? id with
    | none => rfl
    | some e =>
        have hne : e.node ≠ s.nodes.size := Nat.ne_of_lt (Arena.node_lt he)
        simp [Arena.fill, Array.getElem?_push, hne]

/-! ## Stores without shared nodes -/

/-- A change of a slot does not make it lead elsewhere. -/
theorem unshared_modifySlot {s : Store} (hs : s.Unshared) (id : InstId) (f : Slot → Slot) :
    (s.modifySlot id f).Unshared := by
  cases h : s.slot? id with
  | none => rwa [modifySlot_of_none h]
  | some t =>
      rw [modifySlot_of_some h]
      obtain ⟨e, he, -, -, -⟩ := slot?_eq_some_iff.mp h
      refine ⟨by simpa [Arena.nodes_write he] using hs.size, fun n hn => ?_⟩
      have hlt : n < s.slots.size := by simpa using hn
      simp only [Arena.write, he, Array.getElem_modify]
      split <;> exact hs.own n hlt

/-- A new instruction gets a node of its own. -/
theorem unshared_fill {a : Arena} (ha : a.Unshared) (i : Inst) : (a.fill i).Unshared := by
  refine ⟨by simp [Arena.fill, ha.size], fun n hn => ?_⟩
  simp only [Arena.fill, Array.getElem_push]
  split
  · next hlt => exact ha.own n hlt
  · next hle =>
      have : n < a.slots.size + 1 := by simpa [Arena.fill] using hn
      simp only [ha.size]
      omega

namespace Holds

variable {s : Store} {p : Program} {id : InstId}

/-- A known identity has a slot with its instruction, which nothing holds. -/
theorem slot_of_known (h : s.Holds p) (hk : p.Known id) :
    ∃ t, s.slot? id = some t ∧ t.inst = p.inst id ∧ t.hold = .shared 0 := by
  have hsome : (s.slot? id).isSome := by
    rw [isSome_slot?_iff, h.size]
    exact hk
  obtain ⟨t, ht⟩ := Option.isSome_iff_exists.mp hsome
  refine ⟨t, ht, ?_, h.free id t ht⟩
  rw [← h.inst id]
  simp [instAt, ht]

theorem known_of_slot (h : s.Holds p) {t : Slot} (ht : s.slot? id = some t) : p.Known id := by
  have := (isSome_slot?_iff s id).mp (by simp [ht])
  rw [h.size] at this
  exact this

/-- A slot has the instruction of the program. -/
theorem inst_of_slot (h : s.Holds p) {t : Slot} (ht : s.slot? id = some t) :
    t.inst = p.inst id := by
  obtain ⟨u, hu, hi, -⟩ := h.slot_of_known (h.known_of_slot ht)
  rw [ht, Option.some.injEq] at hu
  rw [hu, hi]

/-- An instruction of the order has a slot that nothing accesses. -/
theorem slot_of_mem (h : s.Holds p) (hm : id ∈ p.order) :
    ∃ t, s.slot? id = some t ∧ t.inst = p.inst id ∧ t.hold = .shared 0 :=
  h.slot_of_known (h.known id hm)

/-- The store and the program agree on the next identity. -/
theorem nextId_eq (h : s.Holds p) : s.nextId = p.nextId := by
  simp [Store.nextId, Program.nextId, h.size]

/-- The order is not longer than there are slots. -/
theorem length_order_le (h : s.Holds p) : p.order.length ≤ s.slots.size := by
  rw [h.size]
  exact Program.length_order_le h.nodup h.known

/-- Following the links from any place of the order gives the rest of the order. -/
theorem orderFrom_eq (h : s.Holds p) (left right : List InstId) (steps : Nat)
    (ho : p.order = left ++ right) (hs : right.length ≤ steps) :
    s.orderFrom steps right.head? = right := by
  induction right generalizing left steps with
  | nil => cases steps <;> rfl
  | cons id right ih =>
      obtain ⟨steps, rfl⟩ : ∃ n, steps = n + 1 := ⟨steps - 1, by simp at hs; omega⟩
      have hid : id ∈ p.order := by simp [ho]
      obtain ⟨t, ht, -, -⟩ := h.slot_of_mem hid
      have hnext := (h.linked left id right ho t ht).2
      simp only [List.head?_cons, orderFrom, ht, Option.bind_some, hnext]
      rw [ih (left ++ [id]) steps (by simp [ho]) (by simpa using hs)]

/-- A store that holds a program reads as that program. -/
theorem program_eq (h : s.Holds p) : s.program = p := by
  have horder : s.order = p.order := by
    rw [order, h.head]
    exact h.orderFrom_eq [] p.order _ rfl h.length_order_le
  have hinst : s.instAt = p.inst := funext h.inst
  cases p
  simp_all [program, h.size]

/-- Stores that hold programs with the same order agree in everything but instructions. -/
theorem slot?_eq {t : Store} {q : Program} (hs : s.Holds p) (ht : t.Holds q)
    (horder : q.order = p.order) (hsize : q.size = p.size) (id : InstId) :
    t.slot? id = (s.slot? id).map fun slot => { slot with inst := q.inst id } := by
  cases hslot : s.slot? id with
  | none =>
      have hsame : (t.slot? id).isSome ↔ (s.slot? id).isSome := by
        rw [isSome_slot?_iff, isSome_slot?_iff, ht.size, hs.size, hsize]
      cases hother : t.slot? id with
      | none => rfl
      | some u => simp [hslot, hother] at hsame
  | some slot =>
      have hk : q.Known id := by
        have := hs.known_of_slot hslot
        rwa [Program.Known, hsize]
      obtain ⟨u, hu, hinst, hhold⟩ := ht.slot_of_known hk
      have hlive : u.live = slot.live := by
        rw [Bool.eq_iff_iff, ht.live id u hu, hs.live id slot hslot, horder]
      have hlinks : u.prev = slot.prev ∧ u.next = slot.next := by
        by_cases hid : id ∈ p.order
        · obtain ⟨left, right, hsplit⟩ := List.append_of_mem hid
          obtain ⟨hprev, hnext⟩ := ht.linked left id right (horder.trans hsplit) u hu
          obtain ⟨hprev', hnext'⟩ := hs.linked left id right hsplit slot hslot
          exact ⟨hprev.trans hprev'.symm, hnext.trans hnext'.symm⟩
        · obtain ⟨hprev, hnext⟩ := ht.loose id u hu (by rwa [horder])
          obtain ⟨hprev', hnext'⟩ := hs.loose id slot hslot hid
          exact ⟨hprev.trans hprev'.symm, hnext.trans hnext'.symm⟩
      rw [hu, Option.map_some, ← hinst, ← hlinks.1, ← hlinks.2, ← hlive,
        (hs.free id slot hslot).trans hhold.symm]

/-- Two stores that hold one program are the same, up to the table of temporaries. -/
theorem eq_of_temps_eq {t : Store} (hs : s.Holds p) (ht : t.Holds p) (htemps : t.temps = s.temps) :
    t = s := by
  refine ext_slot? ht.unshared hs.unshared (fun id => ?_) (ht.head.trans hs.head.symm)
    (ht.tail.trans hs.tail.symm) htemps
  rw [hs.slot?_eq ht rfl rfl id]
  cases hslot : s.slot? id with
  | none => rfl
  | some slot => rw [Option.map_some, ← hs.inst_of_slot hslot]

end Holds

/-- A new store has no slots. -/
theorem slot?_empty (id : InstId) : ({} : Store).slot? id = none := by
  simp [slot?_eq_none_iff, Arena.find?]

/-- The empty store holds the empty program. -/
theorem holds_empty : ({} : Store).Holds ⟨[], 0, fun _ => .blank⟩ where
  unshared := ⟨rfl, by simp⟩
  size := rfl
  inst id := by simp [instAt, slot?_empty]
  free id t h := by simp [slot?_empty] at h
  live id t h := by simp [slot?_empty] at h
  nodup := List.nodup_nil
  known := by simp
  head := rfl
  tail := rfl
  linked := by simp
  loose id t h := by simp [slot?_empty] at h

/-! ## Replacing an instruction -/

/-- Replacing the instruction of a slot replaces that instruction of the program. -/
theorem Holds.modify {s : Store} {p : Program} {id : InstId} (h : s.Holds p) (hk : p.Known id)
    (f : Inst → Inst) (change : Slot → Slot)
    (hc : ∀ t, s.slot? id = some t → change t = { t with inst := f t.inst }) :
    (s.modifySlot id change).Holds (p.modify id f) := by
  obtain ⟨t, ht, hti, -⟩ := h.slot_of_known hk
  -- every slot keeps its links and marks
  have hslot : ∀ other u, (s.modifySlot id change).slot? other = some u →
      ∃ t, s.slot? other = some t ∧ u.prev = t.prev ∧ u.next = t.next ∧ u.live = t.live ∧
        u.hold = t.hold := by
    intro other u hu
    by_cases ho : other = id
    · subst ho
      rw [slot?_modifySlot, ht, Option.map_some, hc t ht] at hu
      cases hu
      exact ⟨t, ht, rfl, rfl, rfl, rfl⟩
    · rw [slot?_modifySlot_of_ne h.unshared change ho] at hu
      exact ⟨u, hu, rfl, rfl, rfl, rfl⟩
  constructor
  case unshared => exact unshared_modifySlot h.unshared id change
  case size => simpa using h.size
  case inst =>
    intro other
    by_cases ho : other = id
    · subst ho
      simp [instAt, ht, hc t ht, hti]
    · simpa [instAt, slot?_modifySlot_of_ne h.unshared change ho, Program.inst_modify_of_ne f ho]
        using h.inst other
  case free =>
    intro other u hu
    obtain ⟨t, ht, -, -, -, hold⟩ := hslot other u hu
    rw [hold, h.free other t ht]
  case live =>
    intro other u hu
    obtain ⟨t, ht, -, -, hlive, -⟩ := hslot other u hu
    rw [hlive]
    exact h.live other t ht
  case nodup => exact h.nodup
  case known => exact h.known
  case head => simpa using h.head
  case tail => simpa using h.tail
  case linked =>
    intro left other right ho u hu
    obtain ⟨t, ht, hprev, hnext, -, -⟩ := hslot other u hu
    rw [hprev, hnext]
    exact h.linked left other right ho t ht
  case loose =>
    intro other u hu ho
    obtain ⟨t, ht, hprev, hnext, -, -⟩ := hslot other u hu
    rw [hprev, hnext]
    exact h.loose other t ht ho

/-! ## Taking an instruction out -/

/-- The store with the link after `before` changed; before the first instruction stands the head. -/
def withNext (s : Store) (before after : Option InstId) : Store :=
  match before with
  | none => { s with head := after }
  | some id => s.modifySlot id fun t => { t with next := after }

/-- The store with the link before `after` changed; after the last instruction stands the tail. -/
def withPrev (s : Store) (after before : Option InstId) : Store :=
  match after with
  | none => { s with tail := before }
  | some id => s.modifySlot id fun t => { t with prev := before }

/-- What is left in the store of an instruction and its neighbours once it is taken out. -/
def unlinked (s : Store) (id : InstId) (t : Slot) : Store :=
  (((s.modifySlot id fun t => { t with prev := none, next := none }).withNext t.prev
    t.next).withPrev t.next t.prev).modifySlot id fun t => { t with live := false }

@[simp] theorem size_withNext (s : Store) (a b : Option InstId) :
    (s.withNext a b).slots.size = s.slots.size := by
  cases a <;> simp [withNext]

@[simp] theorem size_withPrev (s : Store) (a b : Option InstId) :
    (s.withPrev a b).slots.size = s.slots.size := by
  cases a <;> simp [withPrev]

/-- Changing a link does not make a slot lead elsewhere. -/
theorem unshared_withNext {s : Store} (hs : s.Unshared) (before after : Option InstId) :
    (s.withNext before after).Unshared := by
  cases before with
  | none => exact hs
  | some id => exact unshared_modifySlot hs id _

/-- Setting a back link shares no node. -/
theorem unshared_withPrev {s : Store} (hs : s.Unshared) (after before : Option InstId) :
    (s.withPrev after before).Unshared := by
  cases after with
  | none => exact hs
  | some id => exact unshared_modifySlot hs id _

/-- Taking an instruction out shares no node. -/
theorem unshared_unlinked {s : Store} (hs : s.Unshared) (id : InstId) (t : Slot) :
    (s.unlinked id t).Unshared :=
  unshared_modifySlot
    (unshared_withPrev (unshared_withNext (unshared_modifySlot hs id _) t.prev t.next)
      t.next t.prev)
    id _

/-- Setting a link changes the slot in front only. -/
theorem slot?_withNext {s : Store} (hs : s.Unshared) (before after : Option InstId) (id : InstId) :
    (s.withNext before after).slot? id =
      (s.slot? id).map fun t => { t with next := if before = some id then after else t.next } := by
  cases before with
  | none =>
      show s.slot? id = _
      cases s.slot? id <;> simp
  | some b =>
      by_cases hb : b = id
      · subst hb
        simp [withNext]
      · have hb' : id ≠ b := fun e => hb e.symm
        simp [withNext, slot?_modifySlot_of_ne hs _ hb', hb]

/-- Setting a back link changes the slot behind only. -/
theorem slot?_withPrev {s : Store} (hs : s.Unshared) (after before : Option InstId) (id : InstId) :
    (s.withPrev after before).slot? id =
      (s.slot? id).map fun t => { t with prev := if after = some id then before else t.prev } := by
  cases after with
  | none =>
      show s.slot? id = _
      cases s.slot? id <;> simp
  | some b =>
      by_cases hb : b = id
      · subst hb
        simp [withPrev]
      · have hb' : id ≠ b := fun e => hb e.symm
        simp [withPrev, slot?_modifySlot_of_ne hs _ hb', hb]

/-- Only the instruction itself and its two neighbours change when it is taken out. -/
theorem slot?_unlinked {s : Store} (hs : s.Unshared) {id : InstId} {t : Slot}
    (hp : t.prev ≠ some id) (hn : t.next ≠ some id) (other : InstId) :
    (s.unlinked id t).slot? other = (s.slot? other).map fun u =>
      if other = id then { u with prev := none, next := none, live := false }
      else { u with
        prev := if t.next = some other then t.prev else u.prev
        next := if t.prev = some other then t.next else u.next } := by
  have hcut := unshared_modifySlot hs id fun t => { t with prev := none, next := none }
  have hnext := unshared_withNext hcut t.prev t.next
  by_cases h : other = id
  · subst h
    simp [unlinked, slot?_withPrev hnext, slot?_withNext hcut, hp, hn, Function.comp_def]
  · rw [unlinked, slot?_modifySlot_of_ne (unshared_withPrev hnext _ _) _ h, slot?_withPrev hnext,
      slot?_withNext hcut, slot?_modifySlot_of_ne hs _ h]
    simp [h, Function.comp_def]

theorem head_unlinked (s : Store) (id : InstId) (t : Slot) :
    (s.unlinked id t).head = if t.prev = none then t.next else s.head := by
  cases hp : t.prev <;> cases hn : t.next <;> simp [unlinked, withNext, withPrev, hp, hn]

theorem tail_unlinked (s : Store) (id : InstId) (t : Slot) :
    (s.unlinked id t).tail = if t.next = none then t.prev else s.tail := by
  cases hp : t.prev <;> cases hn : t.next <;> simp [unlinked, withNext, withPrev, hp, hn]

/-- Without repetitions, an element is the last one exactly when nothing stands after it. -/
theorem getLast?_eq_some_iff {left right : List InstId} {id : InstId}
    (hn : (left ++ id :: right).Nodup) :
    (left ++ id :: right).getLast? = some id ↔ right = [] := by
  constructor
  · intro hl
    by_contra hne
    rw [show left ++ id :: right = (left ++ [id]) ++ right by simp,
      List.getLast?_append_of_ne_nil _ hne] at hl
    have h2 := (List.nodup_append.mp hn).2.1
    exact (List.nodup_cons.mp h2).1 (List.mem_of_getLast? hl)
  · rintro rfl
    simp

/-- The links of an order from which one instruction was taken: only its neighbours see it. -/
theorem neighbours_of_remove {left right before after : List InstId} {id other : InstId}
    (hn : (left ++ id :: right).Nodup) (ho : left ++ right = before ++ other :: after) :
    ∃ before' after', left ++ id :: right = before' ++ other :: after' ∧
      before.getLast? = (if right.head? = some other then left.getLast? else before'.getLast?) ∧
      after.head? = (if left.getLast? = some other then right.head? else after'.head?) := by
  have hdisj : ∀ x ∈ left, x ∉ right := by
    intro x hx hr
    exact (List.nodup_append.mp hn).2.2 x hx x (by simp [hr]) rfl
  rcases List.append_eq_append_iff.mp ho with ⟨rest, rfl, hr⟩ | ⟨rest, rfl, hr⟩
  · -- the other instruction stands on the right
    have hother : other ∈ right := by simp [hr]
    refine ⟨left ++ id :: rest, after, by simp [hr], ?_, ?_⟩
    · cases rest with
      | nil => simp [hr]
      | cons x rest =>
          have hx : x ≠ other := by
            rintro rfl
            have h2 := (List.nodup_cons.mp (List.nodup_append.mp hn).2.1).2
            rw [hr, List.cons_append, List.nodup_cons] at h2
            exact h2.1 (by simp)
          simp [hr, hx, List.getLast?_cons]
    · have : left.getLast? ≠ some other := by
        intro hl
        exact hdisj other (List.mem_of_getLast? hl) hother
      simp [this]
  · cases rest with
    | nil =>
        -- the other instruction is the first one on the right
        have hr' : right = other :: after := by simpa using hr.symm
        refine ⟨before ++ [id], after, by simp [hr'], by simp [hr'], ?_⟩
        have : before.getLast? ≠ some other := by
          intro hl
          exact hdisj other (by simpa using List.mem_of_getLast? hl) (by simp [hr'])
        simp [this]
    | cons x rest =>
        -- the other instruction stands on the left
        obtain ⟨rfl, rfl⟩ := List.cons.inj hr
        refine ⟨before, rest ++ id :: right, by simp, ?_, ?_⟩
        · have : right.head? ≠ some other := by
            intro hh
            exact hdisj other (by simp) (List.mem_of_head? hh)
          simp [this]
        · have hl : (before ++ other :: rest).getLast? = some other ↔ rest = [] :=
            getLast?_eq_some_iff (List.nodup_append.mp hn).1
          by_cases hrest : rest = []
          · simp [hrest]
          · rw [if_neg (mt hl.mp hrest)]
            obtain ⟨z, zs, rfl⟩ := List.exists_cons_of_ne_nil hrest
            rfl

/-- Taking a live instruction out of the links takes it out of the program. -/
theorem Holds.remove {s : Store} {p : Program} {id : InstId} {t : Slot} (h : s.Holds p)
    (hm : id ∈ p.order) (ht : s.slot? id = some t) : (s.unlinked id t).Holds (p.remove id) := by
  obtain ⟨left, right, ho⟩ := List.append_of_mem hm
  obtain ⟨hprev, hnext⟩ := h.linked left id right ho t ht
  have hnd : (left ++ id :: right).Nodup := ho ▸ h.nodup
  have hid : id ∉ left ∧ id ∉ right := by
    simpa using (List.nodup_cons.mp (List.nodup_middle.mp hnd)).1
  have hp : t.prev ≠ some id := fun e => hid.1 (List.mem_of_getLast? (hprev ▸ e))
  have hn : t.next ≠ some id := fun e => hid.2 (List.mem_of_head? (hnext ▸ e))
  have horder : (p.remove id).order = left ++ right := by
    rw [Program.order_remove, ho, List.erase_append_right _ hid.1, List.erase_cons_head]
  have hslot := slot?_unlinked h.unshared hp hn
  constructor
  case unshared => exact unshared_unlinked h.unshared id t
  case size => simpa [unlinked] using h.size
  case inst =>
    intro other
    rw [Program.inst_remove, ← h.inst other]
    simp only [instAt, hslot other]
    cases s.slot? other with
    | none => rfl
    | some u => by_cases hother : other = id <;> simp [hother]
  case free =>
    intro other u hu
    rw [hslot other] at hu
    obtain ⟨v, hv, rfl⟩ := Option.map_eq_some_iff.mp hu
    by_cases hother : other = id <;> simpa [hother] using h.free other v hv
  case live =>
    intro other u hu
    rw [hslot other] at hu
    obtain ⟨v, hv, rfl⟩ := Option.map_eq_some_iff.mp hu
    rw [Program.mem_order_remove h.nodup, ← h.live other v hv]
    by_cases hother : other = id <;> simp [hother]
  case nodup => exact h.nodup.erase id
  case known => exact fun other hother => h.known other (List.mem_of_mem_erase hother)
  case head =>
    rw [head_unlinked, hprev, hnext, horder, h.head, ho]
    cases left <;> simp
  case tail =>
    rw [tail_unlinked, hprev, hnext, horder, h.tail, ho]
    cases right <;> simp
  case linked =>
    intro before other after hsplit u hu
    rw [horder] at hsplit
    obtain ⟨before', after', hold, hb, ha⟩ := neighbours_of_remove hnd hsplit
    have hother : other ≠ id := by
      rintro rfl
      have : other ∈ left ++ right := by simp [hsplit]
      simp [hid] at this
    rw [hslot other] at hu
    obtain ⟨v, hv, rfl⟩ := Option.map_eq_some_iff.mp hu
    obtain ⟨hvp, hvn⟩ := h.linked before' other after' (ho.trans hold) v hv
    simp [hother, hb, ha, hvp, hvn, hprev, hnext]
  case loose =>
    intro other u hu hgone
    rw [hslot other] at hu
    obtain ⟨v, hv, rfl⟩ := Option.map_eq_some_iff.mp hu
    by_cases hother : other = id
    · simp [hother]
    · have hout : other ∉ p.order := by
        intro hin
        exact hgone ((Program.mem_order_remove h.nodup).mpr ⟨hother, hin⟩)
      have hnl : t.next ≠ some other := by
        intro e
        exact hout (by simp [ho, List.mem_of_head? (hnext ▸ e)])
      have hpl : t.prev ≠ some other := by
        intro e
        exact hout (by simp [ho, List.mem_of_getLast? (hprev ▸ e)])
      simpa [hother, hnl, hpl] using h.loose other v hv hout

/-! ## New instructions -/

/-- The store with a slot for a new instruction, which is changed before anything else is. -/
def placed (s : Store) (i : Inst) (change : Slot → Slot) : Store :=
  { s with toArena := s.fill i }.modifySlot s.nextId change

/-- The store with a new last instruction. -/
def appended (s : Store) (i : Inst) : Store :=
  { (s.placed i fun t => { t with prev := s.tail }).withNext s.tail (some s.nextId) with
    tail := some s.nextId }

/-- The store with a new first instruction. -/
def prepended (s : Store) (i : Inst) : Store :=
  { (s.placed i fun t => { t with next := s.head }).withPrev s.head (some s.nextId) with
    head := some s.nextId }

/-- A new instruction shares no node. -/
theorem unshared_placed {s : Store} (hs : s.Unshared) (i : Inst) (change : Slot → Slot) :
    (s.placed i change).Unshared :=
  unshared_modifySlot (unshared_fill hs i) _ _

@[simp] theorem size_placed (s : Store) (i : Inst) (change : Slot → Slot) :
    (s.placed i change).slots.size = s.slots.size + 1 := by
  simp [placed, Arena.fill]

@[simp] theorem head_placed (s : Store) (i : Inst) (change : Slot → Slot) :
    (s.placed i change).head = s.head := by
  simp [placed]

@[simp] theorem tail_placed (s : Store) (i : Inst) (change : Slot → Slot) :
    (s.placed i change).tail = s.tail := by
  simp [placed]

/-- A new instruction shows at its own identity, with what was changed. -/
theorem slot?_placed {s : Store} (hs : s.Unshared) (i : Inst) (change : Slot → Slot) (id : InstId) :
    (s.placed i change).slot? id =
      if id = s.nextId then some (change { inst := i }) else s.slot? id := by
  by_cases hid : id = s.nextId
  · rw [hid, placed, slot?_modifySlot, slot?_fill, if_pos rfl, if_pos rfl, Option.map_some]
  · rw [placed, slot?_modifySlot_of_ne (unshared_fill hs i) _ hid, slot?_fill, if_neg hid,
      if_neg hid]

theorem temps_appended (s : Store) (i : Inst) : (s.appended i).temps = s.temps := by
  unfold appended withNext placed
  dsimp only
  split <;> simp

/-- Appending changes the last slot and makes a new one. -/
theorem slot?_appended {s : Store} (hs : s.Unshared) (i : Inst) (id : InstId) :
    (s.appended i).slot? id =
      ((if id = s.nextId then some { inst := i, prev := s.tail } else s.slot? id).map fun t =>
        { t with next := if s.tail = some id then some s.nextId else t.next }) := by
  rw [← slot?_placed hs i fun t => { t with prev := s.tail },
    ← slot?_withNext (unshared_placed hs i _)]
  rfl

/-- Prepending changes the first slot and makes a new one. -/
theorem slot?_prepended {s : Store} (hs : s.Unshared) (i : Inst) (id : InstId) :
    (s.prepended i).slot? id =
      ((if id = s.nextId then some { inst := i, next := s.head } else s.slot? id).map fun t =>
        { t with prev := if s.head = some id then some s.nextId else t.prev }) := by
  rw [← slot?_placed hs i fun t => { t with next := s.head },
    ← slot?_withPrev (unshared_placed hs i _)]
  rfl

/-- A new last instruction of the store is a new last instruction of the program. -/
theorem Holds.append {s : Store} {p : Program} (h : s.Holds p) (i : Inst) :
    (s.appended i).Holds (p.append i) := by
  have hnew : s.nextId = p.nextId := h.nextId_eq
  have hfresh : p.nextId ∉ p.order := fun hm => p.not_known_nextId (h.known _ hm)
  have htail : s.tail ≠ some p.nextId := by
    rw [h.tail]
    exact fun e => hfresh (List.mem_of_getLast? e)
  have hslot : ∀ id t, (s.appended i).slot? id = some t →
      (id = p.nextId ∧ t = { inst := i, prev := s.tail }) ∨
      (id ≠ p.nextId ∧ ∃ u, s.slot? id = some u ∧
        t = { u with next := if s.tail = some id then some p.nextId else u.next }) := by
    intro id t ht
    rw [slot?_appended h.unshared, hnew] at ht
    by_cases hid : id = p.nextId
    · subst hid
      simp only [if_true, Option.map_some, htail, if_false, Option.some.injEq] at ht
      exact .inl ⟨rfl, ht.symm⟩
    · rw [if_neg hid] at ht
      obtain ⟨u, hu, rfl⟩ := Option.map_eq_some_iff.mp ht
      exact .inr ⟨hid, u, hu, rfl⟩
  constructor
  case unshared => exact unshared_withNext (unshared_placed h.unshared i _) _ _
  case size => simpa [appended] using h.size
  case inst =>
    intro id
    rw [instAt, slot?_appended h.unshared, hnew]
    by_cases hid : id = p.nextId
    · subst hid
      simp
    · rw [Program.inst_append_of_ne i hid, ← h.inst id, if_neg hid, instAt]
      cases s.slot? id <;> rfl
  case free =>
    intro id t ht
    rcases hslot id t ht with ⟨-, rfl⟩ | ⟨-, u, hu, rfl⟩
    · rfl
    · exact h.free id u hu
  case live =>
    intro id t ht
    rcases hslot id t ht with ⟨rfl, rfl⟩ | ⟨hid, u, hu, rfl⟩
    · simp
    · simpa [hid] using h.live id u hu
  case nodup =>
    rw [Program.order_append, ← List.concat_eq_append]
    exact h.nodup.concat hfresh
  case known =>
    intro id hid
    rcases List.mem_append.mp hid with hid | hid
    · have := h.known id hid
      simp only [Program.Known, Program.size_append] at this ⊢
      omega
    · rw [List.mem_singleton.mp hid]
      simp only [Program.Known, Program.size_append, Program.nextId]
      omega
  case head =>
    have : (s.appended i).head = if s.tail = none then some p.nextId else s.head := by
      rw [appended, ← hnew]
      cases s.tail <;> simp [withNext]
    rw [this, h.tail, h.head, Program.order_append]
    cases p.order <;> simp
  case tail =>
    rw [Program.order_append, List.getLast?_concat]
    exact congrArg some hnew
  case linked =>
    intro left id right ho t ht
    rw [Program.order_append] at ho
    rcases List.eq_nil_or_concat right with rfl | ⟨right', last, rfl⟩
    · -- the new instruction itself
      obtain ⟨rfl, hid⟩ := List.append_inj ho.symm (by
        have := congrArg List.length ho
        simp at this
        omega)
      obtain rfl : p.nextId = id := by simpa using hid.symm
      rcases hslot _ t ht with ⟨-, rfl⟩ | ⟨hne, -⟩
      · simp [h.tail]
      · exact absurd rfl hne
    · -- an earlier one
      have hsplit : p.order = left ++ id :: right' ∧ p.nextId = last := by
        have e : p.order ++ [p.nextId] = (left ++ id :: right') ++ [last] := by
          simpa using ho
        simpa using List.append_inj' e rfl
      obtain ⟨hsplit, rfl⟩ := hsplit
      have hid : id ≠ p.nextId := by
        rintro rfl
        exact hfresh (by simp [hsplit])
      rcases hslot id t ht with ⟨rfl, -⟩ | ⟨-, u, hu, rfl⟩
      · exact absurd rfl hid
      · obtain ⟨hup, hun⟩ := h.linked left id right' hsplit u hu
        refine ⟨hup, ?_⟩
        rw [h.tail, hsplit]
        -- only the last of the earlier ones has the new one as its successor
        have hl := getLast?_eq_some_iff (hsplit ▸ h.nodup)
        by_cases hright : right' = []
        · simp [hright]
        · rw [if_neg (mt hl.mp hright), hun]
          obtain ⟨z, zs, rfl⟩ := List.exists_cons_of_ne_nil hright
          rfl
  case loose =>
    intro id t ht hout
    rcases hslot id t ht with ⟨rfl, -⟩ | ⟨-, u, hu, rfl⟩
    · simp at hout
    · have hout' : id ∉ p.order := fun hm => hout (by simp [hm])
      have hne : s.tail ≠ some id := by
        rw [h.tail]
        exact fun e => hout' (List.mem_of_getLast? e)
      simpa [hne] using h.loose id u hu hout'

/-- A new first instruction of the store is a new first instruction of the program. -/
theorem Holds.prepend {s : Store} {p : Program} (h : s.Holds p) (i : Inst) :
    (s.prepended i).Holds (p.prepend i) := by
  have hnew : s.nextId = p.nextId := h.nextId_eq
  have hfresh : p.nextId ∉ p.order := fun hm => p.not_known_nextId (h.known _ hm)
  have hhead : s.head ≠ some p.nextId := by
    rw [h.head]
    exact fun e => hfresh (List.mem_of_head? e)
  have hslot : ∀ id t, (s.prepended i).slot? id = some t →
      (id = p.nextId ∧ t = { inst := i, next := s.head }) ∨
      (id ≠ p.nextId ∧ ∃ u, s.slot? id = some u ∧
        t = { u with prev := if s.head = some id then some p.nextId else u.prev }) := by
    intro id t ht
    rw [slot?_prepended h.unshared, hnew] at ht
    by_cases hid : id = p.nextId
    · subst hid
      simp only [if_true, Option.map_some, hhead, if_false, Option.some.injEq] at ht
      exact .inl ⟨rfl, ht.symm⟩
    · rw [if_neg hid] at ht
      obtain ⟨u, hu, rfl⟩ := Option.map_eq_some_iff.mp ht
      exact .inr ⟨hid, u, hu, rfl⟩
  constructor
  case unshared => exact unshared_withPrev (unshared_placed h.unshared i _) _ _
  case size => simpa [prepended] using h.size
  case inst =>
    intro id
    rw [instAt, slot?_prepended h.unshared, hnew]
    by_cases hid : id = p.nextId
    · subst hid
      simp
    · rw [Program.inst_prepend_of_ne i hid, ← h.inst id, if_neg hid, instAt]
      cases s.slot? id <;> rfl
  case free =>
    intro id t ht
    rcases hslot id t ht with ⟨-, rfl⟩ | ⟨-, u, hu, rfl⟩
    · rfl
    · exact h.free id u hu
  case live =>
    intro id t ht
    rcases hslot id t ht with ⟨rfl, rfl⟩ | ⟨hid, u, hu, rfl⟩
    · simp
    · simpa [hid] using h.live id u hu
  case nodup => exact List.nodup_cons.mpr ⟨hfresh, h.nodup⟩
  case known =>
    intro id hid
    rcases List.mem_cons.mp hid with rfl | hid
    · simp
    · simp [h.known id hid]
  case head => exact congrArg some hnew
  case tail =>
    have : (s.prepended i).tail = if s.head = none then some p.nextId else s.tail := by
      rw [prepended, ← hnew]
      cases s.head <;> simp [withPrev]
    rw [this, h.tail, h.head, Program.order_prepend]
    cases p.order <;> simp
  case linked =>
    intro left id right ho t ht
    rw [Program.order_prepend] at ho
    cases left with
    | nil =>
        obtain ⟨rfl, rfl⟩ := List.cons.inj ho
        rcases hslot _ t ht with ⟨-, rfl⟩ | ⟨hne, -⟩
        · simp [h.head]
        · exact absurd rfl hne
    | cons x left =>
        obtain ⟨rfl, hsplit⟩ := List.cons.inj ho
        have hid : id ≠ p.nextId := by
          rintro rfl
          exact hfresh (by simp [hsplit])
        rcases hslot id t ht with ⟨rfl, -⟩ | ⟨-, u, hu, rfl⟩
        · exact absurd rfl hid
        · obtain ⟨hup, hun⟩ := h.linked left id right hsplit u hu
          refine ⟨?_, hun⟩
          rw [h.head, hsplit]
          -- only the first of the earlier ones has the new one as its predecessor
          cases left with
          | nil => simp
          | cons y left =>
              have hy : y ≠ id := by
                rintro rfl
                have hnd := h.nodup
                rw [hsplit] at hnd
                exact (List.nodup_append.mp hnd).2.2 y (by simp) y (by simp) rfl
              simp [hy, hup, List.getLast?_cons]
  case loose =>
    intro id t ht hout
    rcases hslot id t ht with ⟨rfl, -⟩ | ⟨-, u, hu, rfl⟩
    · simp at hout
    · have hout' : id ∉ p.order := fun hm => hout (by simp [hm])
      have hne : s.head ≠ some id := by
        rw [h.head]
        exact fun e => hout' (List.mem_of_head? e)
      simpa [hne] using h.loose id u hu hout'

end Store

end Straightline
