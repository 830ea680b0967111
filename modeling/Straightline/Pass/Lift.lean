import Straightline.Pass.Duplicates

/-!
# Lifting literals

Literals that take instructions to build are moved into named constants while the target has slots
for names left. Every name of the program takes a slot, written or read. The costliest literals go
first; of equally costly ones, the one that occurs first. They are taken from a priority queue, of
which no more is relied on than that it gives an entry of highest priority.
-/

set_option autoImplicit false

namespace Straightline

/-- The names an instruction makes the target keep: its destination unless temporary, and its named
operands. -/
def Inst.externalNames (i : Inst) : List String :=
  (if i.isTemp then [] else [i.dst]) ++ namesOf i.args

/-- The literals among operands. -/
def literalsOf (args : List Value) : List Literal :=
  args.filterMap fun
    | .literal l => some l
    | _ => none

/-- Adds to a list what is not yet in it, in order. -/
def addNew {α : Type} [BEq α] (xs ys : List α) : List α :=
  ys.foldl (fun xs y => if xs.contains y then xs else xs ++ [y]) xs

/-- The distinct names the program takes slots for, in order of first occurrence. -/
def externalNames : Action (List String) :=
  foldEach (fun names id => do pure (addNew names (← read id Inst.externalNames))) []

/-- The distinct literals that take instructions to build, in order of first occurrence. -/
def costlyLiterals : Action (List Literal) :=
  foldEach (fun found id => do
    pure (addNew found (← read id fun i => (literalsOf i.args).filter (·.cost ≠ 0)))) []

/-- The slots that are left for constants. Slot counts are signed 64-bit words, so a difference
below their range wraps around. -/
def freeSlots (slots : Int) (names : Nat) : Int :=
  if slots < 0 then (slots - names).bmod UInt64.size else slots - names

/-- The entries of the queue: each literal with its priority, which its cost decides, and then how
early it comes. -/
def ranked (found : List Literal) : List (Literal × Nat) :=
  found.mapIdx fun i l => (l, l.cost * found.length + found.length - i)

/-- Takes an entry of highest priority out of a queue, and gives it with what is left. -/
def popMax {α : Type} : List (α × Nat) → Option ((α × Nat) × List (α × Nat))
  | [] => none
  | entry :: queue =>
    match popMax queue with
    | none => some (entry, [])
    | some (best, rest) =>
      if best.2 ≤ entry.2 then some (entry, queue) else some (best, entry :: rest)

/-- Takes up to `n` values out of a queue, one after the other. -/
def drain {α : Type} : Nat → List (α × Nat) → List α
  | 0, _ => []
  | n + 1, queue =>
    match popMax queue with
    | none => []
    | some (best, rest) => best.1 :: drain n rest

/-- An empty queue gives nothing, and no other one does. -/
theorem popMax_eq_none_iff {α : Type} {queue : List (α × Nat)} :
    popMax queue = none ↔ queue = [] := by
  cases queue with
  | nil => simp [popMax]
  | cons entry queue =>
      unfold popMax
      split
      · simp
      · split <;> simp

/-- What is taken out of a queue has the highest priority, and the rest is left. -/
theorem popMax_spec {α : Type} {queue rest : List (α × Nat)} {best : α × Nat}
    (h : popMax queue = some (best, rest)) :
    queue.Perm (best :: rest) ∧ ∀ entry ∈ rest, entry.2 ≤ best.2 := by
  induction queue generalizing best rest with
  | nil => cases h
  | cons entry queue ih =>
      unfold popMax at h
      split at h
      · next hnone =>
          cases h
          obtain rfl := popMax_eq_none_iff.mp hnone
          exact ⟨.refl _, by simp⟩
      · next best' rest' hsome =>
          obtain ⟨hperm, hmax⟩ := ih hsome
          split at h
          · next hle =>
              cases h
              refine ⟨.refl _, fun e he => ?_⟩
              rcases List.mem_cons.mp (hperm.subset he) with rfl | he
              · exact hle
              · exact Nat.le_trans (hmax e he) hle
          · next hlt =>
              cases h
              refine ⟨(hperm.cons entry).trans (.swap ..), fun e he => ?_⟩
              rcases List.mem_cons.mp he with rfl | he
              · exact Nat.le_of_lt (Nat.lt_of_not_le hlt)
              · exact hmax e he

/-- Nothing comes out of a queue that was not in it. -/
theorem exists_of_mem_drain {α : Type} {queue : List (α × Nat)} {n : Nat} {a : α}
    (h : a ∈ drain n queue) : ∃ entry ∈ queue, entry.1 = a := by
  induction n generalizing queue with
  | zero => cases h
  | succ n ih =>
      unfold drain at h
      split at h
      · cases h
      · next best rest hpop =>
          obtain ⟨hperm, -⟩ := popMax_spec hpop
          rcases List.mem_cons.mp h with rfl | h
          · exact ⟨best, hperm.symm.subset (by simp), rfl⟩
          · obtain ⟨entry, he, hentry⟩ := ih h
            exact ⟨entry, hperm.symm.subset (by simp [he]), hentry⟩

/-- No more values come out than were asked for. -/
theorem length_drain_le {α : Type} (n : Nat) (queue : List (α × Nat)) :
    (drain n queue).length ≤ n := by
  induction n generalizing queue with
  | zero => exact Nat.le_refl _
  | succ n ih =>
      unfold drain
      split
      · exact Nat.zero_le _
      · exact Nat.succ_le_succ (ih _)

/-- Puts constants in place of the chosen literals. -/
def liftOperand (chosen : List Literal) : Value → Value
  | .literal l => if chosen.contains l then .name l.constantName else .literal l
  | v => v

/-- The literals to lift: as many of the costliest as there are free slots. -/
def chooseLiterals (slots : Int) : Action (List Literal) := do
  let names ← externalNames
  let found ← costlyLiterals
  pure (drain (freeSlots slots names.length).toNat (ranked found))

/-- Puts constants in place of the chosen literals of one instruction. -/
def liftOperands (chosen : List Literal) (id : InstId) : Action Unit :=
  edit id fun i => { i with args := i.args.map (liftOperand chosen) }

/-- Lifts the costliest literals into the free slots. -/
def lift (slots : Int) : Action Unit := do
  let chosen ← chooseLiterals slots
  chosen.forM fun l => report (.lifted l)
  if chosen.isEmpty then pure () else forEach (liftOperands chosen)

end Straightline
