import Mathlib.Data.List.Basic
import Mathlib.Data.List.Nodup
import Mathlib.Data.List.Perm.Subperm
import Mathlib.Logic.Function.Basic
import Straightline.Store.Order

/-!
# Programs without their links

A `Program` is what a store means: the order of its live instructions, the number of identities
given out so far, and the instruction of every identity, live or not. Links, borrow counters and the
table of temporaries are gone. Every result about the passes is stated on programs; the file
`Holding` says when a store holds a program, and `Computes` that the running code does to the
program what the plain functions here do.

`Precedes` is program order as a relation. It is a two-element sublist of the order, so removing an
instruction keeps it for the others and putting one in front keeps it for all.
-/

set_option autoImplicit false

namespace Straightline

/-- In a list without repetitions, what stands before an entry is on its left. -/
theorem pair_sublist_iff {α : Type*} {a b : α} {l left right : List α} (hn : l.Nodup)
    (ho : l = left ++ b :: right) : [a, b].Sublist l ↔ a ∈ left := by
  have hb : b ∉ left ∧ b ∉ right := by
    rw [ho] at hn
    have := List.nodup_middle.mp hn
    simpa using (List.nodup_cons.mp this).1
  constructor
  · intro h
    rw [ho, List.sublist_append_iff] at h
    obtain ⟨l₁, l₂, hl, h₁, h₂⟩ := h
    match l₁, hl with
    | [], hl =>
      subst hl
      cases h₂ with
      | cons _ h => exact absurd (h.subset (by simp)) hb.2
      | cons_cons _ h => exact absurd (h.subset (by simp)) hb.2
    | y :: ys, hl =>
      have : a = y := by simpa using (List.cons.inj hl).1
      exact h₁.subset (by simp [this])
  · intro h
    rw [ho]
    exact (List.singleton_sublist.mpr h).append (List.singleton_sublist.mpr (by simp))

/-- What stands at an identity that was never given out. -/
def Inst.blank : Inst := { dst := "", op := "", args := [] }

/-- A straight-line program: the live instructions in order, how many identities exist, and what
instruction each of them has. -/
@[ext] structure Program where
  order : List InstId
  size : Nat
  inst : InstId → Inst

namespace Program

/-- An identity that has been given out. -/
def Known (p : Program) (id : InstId) : Prop := 0 ≤ id.index ∧ id.index < p.size

/-- The identity of the next instruction. -/
def nextId (p : Program) : InstId := ⟨p.size⟩

/-- Changes one instruction. -/
def modify (p : Program) (id : InstId) (f : Inst → Inst) : Program :=
  { p with inst := Function.update p.inst id (f (p.inst id)) }

/-- Takes one instruction out of the order. -/
def remove (p : Program) (id : InstId) : Program := { p with order := p.order.erase id }

/-- Puts a new instruction at the beginning. -/
def prepend (p : Program) (i : Inst) : Program where
  order := p.nextId :: p.order
  size := p.size + 1
  inst := Function.update p.inst p.nextId i

/-- Puts a new instruction at the end. -/
def append (p : Program) (i : Inst) : Program where
  order := p.order ++ [p.nextId]
  size := p.size + 1
  inst := Function.update p.inst p.nextId i

/-- `a` stands before `b` in the program order. -/
def Precedes (p : Program) (a b : InstId) : Prop := [a, b].Sublist p.order

variable (p : Program) (id other : InstId) (f : Inst → Inst) (i : Inst)

@[simp] theorem order_modify : (p.modify id f).order = p.order := rfl

@[simp] theorem size_modify : (p.modify id f).size = p.size := rfl

/-- The instruction is what the change makes of it. -/
@[simp] theorem inst_modify_self : (p.modify id f).inst id = f (p.inst id) := by
  simp [modify]

/-- Other instructions stay as they were. -/
theorem inst_modify_of_ne {p : Program} {id other : InstId} (f : Inst → Inst) (h : other ≠ id) :
    (p.modify id f).inst other = p.inst other := by
  simp [modify, h]

theorem inst_modify :
    (p.modify id f).inst other = if other = id then f (p.inst id) else p.inst other := by
  by_cases h : other = id
  · subst h; simp
  · simp [inst_modify_of_ne f h, h]

@[simp] theorem order_remove : (p.remove id).order = p.order.erase id := rfl

@[simp] theorem size_remove : (p.remove id).size = p.size := rfl

@[simp] theorem inst_remove : (p.remove id).inst = p.inst := rfl

@[simp] theorem order_prepend : (p.prepend i).order = p.nextId :: p.order := rfl

@[simp] theorem size_prepend : (p.prepend i).size = p.size + 1 := rfl

@[simp] theorem inst_prepend_new : (p.prepend i).inst p.nextId = i := by simp [prepend]

theorem inst_prepend_of_ne {p : Program} {id : InstId} (i : Inst) (h : id ≠ p.nextId) :
    (p.prepend i).inst id = p.inst id := by
  simp [prepend, h]

@[simp] theorem order_append : (p.append i).order = p.order ++ [p.nextId] := rfl

@[simp] theorem size_append : (p.append i).size = p.size + 1 := rfl

@[simp] theorem inst_append_new : (p.append i).inst p.nextId = i := by simp [append]

theorem inst_append_of_ne {p : Program} {id : InstId} (i : Inst) (h : id ≠ p.nextId) :
    (p.append i).inst id = p.inst id := by
  simp [append, h]

/-- The next identity has not been given out. -/
theorem not_known_nextId : ¬ p.Known p.nextId := by
  simp [Known, nextId]

/-- An identity that was given out is not the next one. -/
theorem ne_nextId_of_known {p : Program} {id : InstId} (h : p.Known id) : id ≠ p.nextId := by
  rintro rfl
  exact p.not_known_nextId h

@[simp] theorem known_modify : (p.modify id f).Known other ↔ p.Known other := Iff.rfl

@[simp] theorem known_remove : (p.remove id).Known other ↔ p.Known other := Iff.rfl

@[simp] theorem known_prepend :
    (p.prepend i).Known other ↔ p.Known other ∨ other = p.nextId := by
  obtain ⟨n⟩ := other
  simp only [Known, size_prepend, nextId, InstId.mk.injEq]
  omega

/-- The order is no longer than the number of identities, since it has no repetitions. -/
theorem length_order_le {p : Program} (hn : p.order.Nodup) (hk : ∀ id ∈ p.order, p.Known id) :
    p.order.length ≤ p.size := by
  have hsub : p.order.map (fun id => id.index.toNat) ⊆ List.range p.size := by
    intro n hn
    obtain ⟨id, hid, rfl⟩ := List.mem_map.mp hn
    have := hk id hid
    simp only [Known] at this
    simp only [List.mem_range]
    omega
  have hnodup : (p.order.map fun id => id.index.toNat).Nodup := by
    refine List.Nodup.map_on ?_ hn
    intro a ha b hb hab
    have hka := hk a ha
    have hkb := hk b hb
    obtain ⟨a⟩ := a
    obtain ⟨b⟩ := b
    simp only [Known] at hka hkb hab
    simp only [InstId.mk.injEq]
    omega
  have := (List.subperm_of_subset hnodup hsub).length_le
  simpa using this

/-! Program order as a relation. -/

section Precedes

variable {p : Program} {a b c x : InstId}

theorem Precedes.left_mem (h : p.Precedes a b) : a ∈ p.order := h.subset (by simp)

theorem Precedes.right_mem (h : p.Precedes a b) : b ∈ p.order := h.subset (by simp)

/-- No instruction precedes itself. -/
theorem Precedes.ne (hn : p.order.Nodup) (h : p.Precedes a b) : a ≠ b := by
  have := hn.sublist h
  simpa using this

/-- Where `b` stands, everything that precedes it is on its left. -/
theorem precedes_iff_mem_left (hn : p.order.Nodup) {left right : List InstId}
    (ho : p.order = left ++ b :: right) : p.Precedes a b ↔ a ∈ left :=
  pair_sublist_iff hn ho

/-- Preceding is transitive. -/
theorem Precedes.trans (hn : p.order.Nodup) (h₁ : p.Precedes a b) (h₂ : p.Precedes b c) :
    p.Precedes a c := by
  obtain ⟨left, right, ho⟩ := List.append_of_mem h₂.right_mem
  obtain ⟨l, r, hl⟩ := List.append_of_mem ((precedes_iff_mem_left hn ho).mp h₂)
  have ho' : p.order = l ++ b :: (r ++ c :: right) := by rw [ho, hl]; simp
  have ha : a ∈ l := (precedes_iff_mem_left hn ho').mp h₁
  rw [precedes_iff_mem_left hn ho, hl]
  simp [ha]

/-- Of two instructions only one precedes the other. -/
theorem Precedes.asymm (hn : p.order.Nodup) (h₁ : p.Precedes a b) : ¬ p.Precedes b a :=
  fun h₂ => (h₁.trans hn h₂).ne hn rfl

@[simp] theorem precedes_modify {id : InstId} {f : Inst → Inst} :
    (p.modify id f).Precedes a b ↔ p.Precedes a b := Iff.rfl

/-- Taking out a third instruction changes nothing between two. -/
theorem precedes_remove (hn : p.order.Nodup) :
    (p.remove x).Precedes a b ↔ p.Precedes a b ∧ a ≠ x ∧ b ≠ x := by
  constructor
  · intro h
    have ha : a ∈ p.order.erase x := h.left_mem
    have hb : b ∈ p.order.erase x := h.right_mem
    exact ⟨List.Sublist.trans h List.erase_sublist, (hn.mem_erase_iff.mp ha).1,
      (hn.mem_erase_iff.mp hb).1⟩
  · rintro ⟨h, ha, hb⟩
    have := List.Sublist.filter (fun y => y != x) h
    simpa [Precedes, hn.erase_eq_filter, ha, hb] using this

theorem mem_order_remove (hn : p.order.Nodup) :
    a ∈ (p.remove x).order ↔ a ≠ x ∧ a ∈ p.order := hn.mem_erase_iff

/-- Prepending keeps the order of any two. -/
theorem Precedes.prepend {i : Inst} (h : p.Precedes a b) : (p.prepend i).Precedes a b :=
  List.Sublist.trans h (List.sublist_cons_self _ _)

/-- A prepended instruction precedes all others. -/
theorem nextId_precedes {i : Inst} (h : b ∈ p.order) : (p.prepend i).Precedes p.nextId b := by
  simpa [Precedes] using h

end Precedes

end Program

end Straightline
