import Mathlib.Data.List.Infix
import Mathlib.Data.List.Nodup
import Straightline.Proofs.Reading

/-!
# Walks that lose instructions

A walk reads the next instruction before each visit, and once more after it if the visited
instruction is still there. So a visit may unlink any instructions, before it, after it, or the
visited one, but not the visited one together with the one that follows it (`Program.MayUnlink`). If
every visit keeps to that, the walk comes to an end whatever it loses on the way, and it visits the
instructions that no earlier visit unlinked, in the order they had at the start
(`calls_of_unlinking`, and `calls_of_forEach` for a walk that passes nothing along).

What a visit unlinks is up to a `Callback`, which sees the program as it is at the visit and passes
a state of its own along. The walk notes its calls, so that its result tells what was visited and
what each visit unlinked.
-/

set_option autoImplicit false

namespace Straightline

/-! ## Taking out several instructions -/

namespace Program

variable {p : Program} {id : InstId} {ids : List InstId}

/-- Takes several instructions out of the order. -/
def removeAll (p : Program) (ids : List InstId) : Program := { p with order := p.order.diff ids }

/-- Several instructions are taken out one after the other. -/
theorem removeAll_cons (p : Program) (id : InstId) (ids : List InstId) :
    p.removeAll (id :: ids) = (p.remove id).removeAll ids := by
  rw [removeAll, removeAll, List.diff_cons]
  rfl

theorem order_removeAll (hn : p.order.Nodup) (ids : List InstId) :
    (p.removeAll ids).order = p.order.filter (· ∉ ids) := hn.sdiff_eq_filter

/-- What a visit of `id` may unlink: different instructions of the program, and not both `id` and
the instruction after it. -/
structure MayUnlink (p : Program) (id : InstId) (ids : List InstId) : Prop where
  nodup : ids.Nodup
  live : ∀ x ∈ ids, x ∈ p.order
  ahead : id ∈ ids → ∀ x ∈ ids, ¬ [id, x] <:+: p.order

instance (p : Program) (id : InstId) (ids : List InstId) : Decidable (p.MayUnlink id ids) :=
  decidable_of_iff (ids.Nodup ∧ (∀ x ∈ ids, x ∈ p.order) ∧
    (id ∈ ids → ∀ x ∈ ids, ¬ [id, x] <:+: p.order))
    ⟨fun h => ⟨h.1, h.2.1, h.2.2⟩, fun h => ⟨h.nodup, h.live, h.ahead⟩⟩

/-- Then the way ahead is not lost. -/
theorem MayUnlink.survives (h : p.MayUnlink id ids) (hn : p.order.Nodup) (hid : id ∈ p.order) :
    p.Survives id (p.removeAll ids) where
  order := by
    rw [order_removeAll hn]
    exact List.filter_sublist
  size := Nat.le_refl _
  ahead := by
    by_cases hgone : id ∈ ids
    · refine .inr fun left right y ho hy => ?_
      obtain ⟨rest, rfl⟩ : ∃ rest, right = y :: rest := List.head?_eq_some_iff.mp hy
      have hnext : [id, y] <:+: p.order := ⟨left, rest, by simp [ho]⟩
      have hy' : y ∉ ids := fun hmem => h.ahead hgone y hmem hnext
      rw [order_removeAll hn]
      simp [ho, hy']
    · rw [order_removeAll hn]
      simp [hid, hgone]

end Program

/-- Instructions that are in the program can be unlinked one after the other. -/
theorem computes_forM_unlink {p : Program} {ids : List InstId} (hn : ids.Nodup)
    (hlive : ∀ x ∈ ids, x ∈ p.order) : Computes (ids.forM unlink) p () (p.removeAll ids) := by
  induction ids generalizing p with
  | nil => exact computes_pure ()
  | cons id ids ih =>
      obtain ⟨hid, hn⟩ := List.nodup_cons.mp hn
      rw [Program.removeAll_cons]
      refine (computes_unlink (hlive id (by simp))).bind (ih hn fun x hx => ?_)
      have hne : x ≠ id := fun e => hid (e ▸ hx)
      exact (List.mem_erase_of_ne hne).mpr (hlive x (by simp [hx]))

/-- An action that looks at the whole program. -/
theorem computes_get_program {α : Type} {p q : Program} {f : Program → Action α} {a : α}
    (hf : Computes (f p) p a q) : Computes (do f (← get).store.program) p a q := by
  intro w h
  obtain ⟨w', hrun, hq⟩ := hf w h
  refine ⟨w', ?_, hq⟩
  rw [← hrun, ← h.program_eq]
  rfl

/-! ## Callbacks -/

/-- What a callback unlinks when it is called on an instruction of a program, and its state after
that. -/
abbrev Callback (σ : Type) := σ → Program → InstId → List InstId × σ

/-- A call: the instruction that was visited, and what was unlinked there. -/
structure Call where
  visited : InstId
  unlinked : List InstId
deriving DecidableEq, Repr

namespace Callback

variable {σ : Type}

/-- The calls and the state after one more call. -/
def note (callback : Callback σ) (s : List Call × σ) (p : Program) (id : InstId) : List Call × σ :=
  (s.1 ++ [⟨id, (callback s.2 p id).1⟩], (callback s.2 p id).2)

/-- Calls a callback without a state on an instruction, and unlinks what it picks. -/
def act (callback : Callback Unit) (id : InstId) : Action Unit := do
  let p := (← get).store.program
  (callback () p id).1.forM unlink

/-- Calls the callback on an instruction, unlinks what it picks, and notes the call. -/
def visit (callback : Callback σ) (s : List Call × σ) (id : InstId) : Action (List Call × σ) := do
  let p := (← get).store.program
  (callback s.2 p id).1.forM unlink
  pure (callback.note s p id)

/-- The callback unlinks what it may whenever it is called: on one instruction of the list after the
other, except those that are gone by then. -/
def Permitted (callback : Callback σ) : List InstId → σ → Program → Prop
  | [], _, _ => True
  | id :: rest, s, p =>
    if id ∈ p.order then
      p.MayUnlink id (callback s p id).1 ∧
        callback.Permitted rest (callback s p id).2 (p.removeAll (callback s p id).1)
    else callback.Permitted rest s p

instance decidablePermitted (callback : Callback σ) :
    ∀ ids s p, Decidable (callback.Permitted ids s p)
  | [], _, _ => .isTrue trivial
  | id :: rest, s, p =>
    have := decidablePermitted callback rest (callback s p id).2 (p.removeAll (callback s p id).1)
    have := decidablePermitted callback rest s p
    inferInstanceAs (Decidable (if id ∈ p.order then
      p.MayUnlink id (callback s p id).1 ∧
        callback.Permitted rest (callback s p id).2 (p.removeAll (callback s p id).1)
      else callback.Permitted rest s p))

/-- The visit on programs. -/
def step (callback : Callback σ) (s : List Call × σ) (p : Program) (id : InstId) :
    (List Call × σ) × Program :=
  (callback.note s p id, p.removeAll (callback s.2 p id).1)

variable {callback : Callback σ} {p q : Program} {id : InstId} {rest : List InstId}

/-- A visit unlinks what it may, and notes the call. -/
theorem computes_visit {s : List Call × σ} (h : p.MayUnlink id (callback s.2 p id).1) :
    Computes (callback.visit s id) p (callback.step s p id).1 (callback.step s p id).2 :=
  computes_get_program (f := fun p => do
      (callback s.2 p id).1.forM unlink
      pure (callback.note s p id))
    ((computes_forM_unlink h.nodup h.live).bind (computes_pure _))

/-- A walk with at least as many steps as there are instructions computes what the visits compute
one after the other. -/
theorem computes_foldFrom_visit {s : σ} (h : callback.Permitted p.order s p) {steps : Nat}
    (hsteps : p.order.length ≤ steps) :
    Computes (foldFrom callback.visit steps p.order.head? ([], s)) p
      (Program.foldLive callback.step p.order (([], s), p)).1
      (Program.foldLive callback.step p.order (([], s), p)).2 := by
  have hskip : ∀ id rest (r : List Call × σ) q, callback.Permitted (id :: rest) r.2 q →
      id ∉ q.order → callback.Permitted rest r.2 q := by
    intro id rest r q hper hid
    rwa [Permitted, if_neg hid] at hper
  have hstep : ∀ id rest r q, callback.Permitted (id :: rest) r.2 q → q.order.Nodup →
      id ∈ q.order → Computes (callback.visit r id) q (callback.step r q id).1
          (callback.step r q id).2 ∧
        callback.Permitted rest (callback.step r q id).1.2 (callback.step r q id).2 ∧
        q.Survives id (callback.step r q id).2 := by
    intro id rest r q hper hn hid
    rw [Permitted, if_pos hid] at hper
    exact ⟨computes_visit hper.1, hper.2, hper.1.survives hn hid⟩
  have hself : p.order.filter (· ∈ p.order) = p.order := List.filter_eq_self.mpr (by simp)
  have hwalk := computes_foldFrom (fun rest r q => callback.Permitted rest r.2 q) hskip hstep
    p.order [] steps ([], s) p h (by simp [hself]) hsteps
  rwa [hself] at hwalk

/-! ## Who is visited -/

/-- What holds of the calls made so far; `rest` is the part of the order that is still ahead. -/
structure Walked (p : Program) (rest : List InstId) (calls : List Call) (q : Program) : Prop where
  left : q = { p with order := p.order.filter fun x => ∀ c ∈ calls, x ∉ c.unlinked }
  visits : ∃ done, p.order = done ++ rest ∧ (calls.map Call.visited).Sublist done ∧
    ∀ x ∈ done, x ∈ calls.map Call.visited ↔
      ∀ c ∈ calls, p.Precedes c.visited x → x ∉ c.unlinked

namespace Walked

variable {calls : List Call}

theorem start (p : Program) : Walked p p.order [] p where
  left := by simp
  visits := ⟨[], by simp⟩

/-- What is left is what no call has unlinked. -/
theorem mem_order (h : Walked p rest calls q) :
    id ∈ q.order ↔ id ∈ p.order ∧ ∀ c ∈ calls, id ∉ c.unlinked := by
  rw [h.left, List.mem_filter, decide_eq_true_iff]

/-- An instruction that is gone was unlinked by an earlier visit. -/
theorem skip (h : Walked p (id :: rest) calls q) (hn : p.order.Nodup) (hid : id ∉ q.order) :
    Walked p rest calls q := by
  obtain ⟨done, ho, hsub, hvisits⟩ := h.visits
  have hpre : ∀ x ∈ done, p.Precedes x id := fun x hx =>
    (Program.precedes_iff_mem_left hn ho).mpr hx
  have hdone : id ∉ done := fun hd => (hpre id hd).ne hn rfl
  refine ⟨h.left, done ++ [id], by simp [ho], hsub.trans (List.sublist_append_left _ _), ?_⟩
  intro x hx
  rcases List.mem_append.mp hx with hx | hx
  · exact hvisits x hx
  · obtain rfl : x = id := by simpa using hx
    have hgone : ¬ ∀ c ∈ calls, x ∉ c.unlinked := fun hall =>
      hid (h.mem_order.mpr ⟨by simp [ho], hall⟩)
    refine iff_of_false (fun hv => hdone (hsub.subset hv)) fun hall => hgone fun c hc => ?_
    exact hall c hc (hpre c.visited (hsub.subset (List.mem_map_of_mem hc)))

/-- An instruction that is there is visited. -/
theorem call (h : Walked p (id :: rest) calls q) (hn : p.order.Nodup) (hid : id ∈ q.order)
    (ids : List InstId) : Walked p rest (calls ++ [⟨id, ids⟩]) (q.removeAll ids) := by
  obtain ⟨done, ho, hsub, hvisits⟩ := h.visits
  have hpre : ∀ x ∈ done, p.Precedes x id := fun x hx =>
    (Program.precedes_iff_mem_left hn ho).mpr hx
  have hqn : q.order.Nodup := by
    rw [h.left]
    exact hn.filter _
  constructor
  case left =>
    have hgone : (q.removeAll ids).order =
        p.order.filter fun x => ∀ c ∈ calls ++ [⟨id, ids⟩], x ∉ c.unlinked := by
      rw [Program.order_removeAll hqn, h.left, List.filter_filter]
      refine List.filter_congr fun x _ => ?_
      simp [or_imp, forall_and, and_comm]
    have hrest : q.removeAll ids = { p with order := (q.removeAll ids).order } := by
      rw [h.left]
      rfl
    rw [hrest, hgone]
  case visits =>
    refine ⟨done ++ [id], by simp [ho], ?_, fun x hx => ?_⟩
    · rw [List.map_append]
      exact hsub.append (List.Sublist.refl _)
    · -- the new call counts for nothing that stands before it
      have hlater : ∀ c ∈ calls ++ [⟨id, ids⟩], p.Precedes c.visited x → c ∈ calls := by
        intro c hc hcx
        rcases List.mem_append.mp hc with hc | hc
        · exact hc
        · obtain rfl : c = ⟨id, ids⟩ := by simpa using hc
          rcases List.mem_append.mp hx with hx | hx
          · exact absurd hcx ((hpre x hx).asymm hn)
          · exact absurd (List.mem_singleton.mp hx).symm (hcx.ne hn)
      have hsame : (∀ c ∈ calls ++ [⟨id, ids⟩], p.Precedes c.visited x → x ∉ c.unlinked) ↔
          ∀ c ∈ calls, p.Precedes c.visited x → x ∉ c.unlinked :=
        ⟨fun hall c hc => hall c (List.mem_append_left _ hc),
          fun hall c hc hcx => hall c (hlater c hc hcx) hcx⟩
      rw [hsame, List.map_append, List.mem_append]
      rcases List.mem_append.mp hx with hx | hx
      · have hne : x ≠ id := (hpre x hx).ne hn
        simpa [hne] using hvisits x hx
      · obtain rfl : x = id := by simpa using hx
        have hkept := (h.mem_order.mp hid).2
        exact iff_of_true (by simp) fun c hc _ => hkept c hc

end Walked

/-- The calls of a whole walk. -/
theorem walked_foldLive (callback : Callback σ) (hn : p.order.Nodup) (s : σ) :
    Walked p [] (Program.foldLive callback.step p.order (([], s), p)).1.1
      (Program.foldLive callback.step p.order (([], s), p)).2 :=
  Program.foldLive_induction_ahead (fun rest (r : List Call × σ) q => Walked p rest r.1 q)
    (fun _ _ _ _ h hid => h.skip hn hid) (fun id _ r q h hid => h.call hn hid (callback r.2 q id).1)
    p.order (.start p)

/-- The calls of a walk that is permitted, and what it leaves, for all numbers of steps that
suffice. -/
theorem exists_calls {s : σ} {w : Workspace} (h : w.store.Holds p)
    (hcallback : callback.Permitted p.order s p) :
    ∃ calls s', (calls.map Call.visited).Sublist p.order ∧
      (∀ id ∈ p.order, id ∈ calls.map Call.visited ↔
        ∀ c ∈ calls, p.Precedes c.visited id → id ∉ c.unlinked) ∧
      ∀ steps, p.order.length ≤ steps →
        ∃ w', foldFrom callback.visit steps w.store.head ([], s) w = .ok (calls, s') w' ∧
          w'.store.Holds
            { p with order := p.order.filter fun x => ∀ c ∈ calls, x ∉ c.unlinked } := by
  obtain ⟨hleft, done, ho, hsub, hvisits⟩ := walked_foldLive callback h.nodup s
  set r := Program.foldLive callback.step p.order (([], s), p)
  obtain rfl : p.order = done := by simpa using ho
  refine ⟨r.1.1, r.1.2, hsub, hvisits, fun steps hsteps => ?_⟩
  rw [h.head]
  obtain ⟨w', hwalk, hholds⟩ := computes_foldFrom_visit hcallback hsteps w h
  exact ⟨w', hwalk, hleft ▸ hholds⟩

/-! ## Walks that pass nothing along -/

/-- What visits do not need, a walk need not pass along. -/
theorem foldFrom_forget {visit : σ → InstId → Action σ} {act : InstId → Action Unit}
    (h : ∀ s id, (do let _ ← visit s id; pure ()) = act id) (steps : Nat) (start : Option InstId)
    (s : σ) : (do let _ ← foldFrom visit steps start s; pure ()) =
      foldFrom (fun _ id => act id) steps start () := by
  induction steps generalizing start s with
  | zero => cases start <;> rfl
  | succ steps ih =>
      cases start with
      | none => rfl
      | some id =>
          simp only [foldFrom, bind_assoc, ih, ← h s id, pure_bind]

/-- The walk without notes does what the walk with notes does. -/
theorem forEach_act (callback : Callback Unit) :
    forEach callback.act = (do let _ ← foldEach callback.visit ([], ()); pure ()) := by
  have hact : ∀ (s : List Call × Unit) id,
      (do let _ ← callback.visit s id; pure ()) = callback.act id := fun s id => by
    simp only [visit, act, bind_assoc, pure_bind]
    exact bind_congr fun v => bind_pure _
  unfold forEach foldEach
  simp only [bind_assoc, foldFrom_forget hact]

end Callback

/-- A walk whose visits unlink what they may comes to an end, whatever number of steps it is given,
if only they are as many as there are instructions. It visits, in the order at the start and each
once, the instructions that no earlier visit unlinked. What is left in the end is what no visit
unlinked. -/
theorem calls_of_unlinking {σ : Type} (callback : Callback σ) (s : σ) {w : Workspace} {p : Program}
    (h : w.store.Holds p) (hcallback : callback.Permitted p.order s p) :
    ∃ calls s', (calls.map Call.visited).Sublist p.order ∧
      (∀ id ∈ p.order, id ∈ calls.map Call.visited ↔
        ∀ c ∈ calls, p.Precedes c.visited id → id ∉ c.unlinked) ∧
      (∃ w', foldEach callback.visit ([], s) w = .ok (calls, s') w' ∧
        w'.store.Holds { p with order := p.order.filter fun x => ∀ c ∈ calls, x ∉ c.unlinked }) ∧
      ∀ steps, p.order.length ≤ steps →
        ∃ w', foldFrom callback.visit steps w.store.head ([], s) w = .ok (calls, s') w' := by
  obtain ⟨calls, s', hsub, hvisits, hwalk⟩ := Callback.exists_calls h hcallback
  refine ⟨calls, s', hsub, hvisits, hwalk w.store.slots.size h.length_order_le, ?_⟩
  intro steps hsteps
  obtain ⟨w', hrun, -⟩ := hwalk steps hsteps
  exact ⟨w', hrun⟩

/-- One visit unlinks its successor and the one after it, one unlinks itself and an instruction far
ahead, and one unlinks what is behind it and the last instruction. -/
theorem calls_of_unlinked_neighbours :
    let source := "a = f(x)\nb = f(x)\nc = f(x)\nd = f(x)\ne = f(x)\nf = f(x)\ng = f(x)\n"
    let table : List (InstId × List InstId) :=
      [(⟨0⟩, [⟨2⟩, ⟨1⟩]), (⟨3⟩, [⟨5⟩, ⟨3⟩]), (⟨4⟩, [⟨0⟩, ⟨6⟩])]
    let callback : Callback Unit := fun _ _ id => ((table.lookup id).getD [], ())
    ∃ w w' calls, Source.load source.toUTF8.toList {} = .ok (.ok ()) w ∧
      callback.Permitted w.store.program.order () w.store.program ∧
      foldEach callback.visit ([], ()) w = .ok (calls, ()) w' ∧
      calls.map Call.visited = [⟨0⟩, ⟨3⟩, ⟨4⟩] ∧ w'.store.program.order = [⟨4⟩] ∧
      ∀ id ∈ w.store.program.order, id ∈ calls.map Call.visited ↔
        ∀ c ∈ calls, w.store.program.Precedes c.visited id → id ∉ c.unlinked := by
  intro source table callback
  have hruns : ∃ w ∈ after? (Source.load source.toUTF8.toList) {},
      callback.Permitted w.store.program.order () w.store.program ∧
      ∃ r ∈ result? (foldEach callback.visit ([], ())) w,
        r.1.map Call.visited = [⟨0⟩, ⟨3⟩, ⟨4⟩] ∧
        (w.store.program.order.filter fun x => ∀ c ∈ r.1, x ∉ c.unlinked) = [⟨4⟩] := by
    decide +kernel
  obtain ⟨w, hread, hcallback, r, hresult, hvisited, hleft⟩ := hruns
  obtain ⟨_, hload⟩ := exists_of_after? hread
  obtain ⟨_, hrun⟩ := exists_of_result? hresult
  obtain ⟨calls, s', -, hcalls, ⟨w', hwalk, hholds⟩, -⟩ :=
    calls_of_unlinking callback () (Source.loaded_of_load hload).fresh.holds hcallback
  rw [hrun, EStateM.Result.ok.injEq] at hwalk
  obtain ⟨rfl, rfl⟩ := hwalk
  refine ⟨w, _, calls, hload, hcallback, hrun, hvisited, ?_, hcalls⟩
  rw [hholds.program_eq]
  exact hleft

/-- The same of a walk that passes nothing along, which is the way in which passes walk. It leaves
what the walk leaves that notes its calls. -/
theorem calls_of_forEach (callback : Callback Unit) {w : Workspace} {p : Program}
    (h : w.store.Holds p) (hcallback : callback.Permitted p.order () p) :
    ∃ calls w', forEach callback.act w = .ok () w' ∧
      foldEach callback.visit ([], ()) w = .ok (calls, ()) w' ∧
      (calls.map Call.visited).Sublist p.order ∧
      (∀ id ∈ p.order, id ∈ calls.map Call.visited ↔
        ∀ c ∈ calls, p.Precedes c.visited id → id ∉ c.unlinked) ∧
      w'.store.Holds { p with order := p.order.filter fun x => ∀ c ∈ calls, x ∉ c.unlinked } := by
  obtain ⟨calls, s', hsub, hvisits, hwalk⟩ := Callback.exists_calls h hcallback
  obtain ⟨w', hrun, hholds⟩ := hwalk w.store.slots.size h.length_order_le
  have heach : foldEach callback.visit ([], ()) w = .ok (calls, ()) w' := hrun
  refine ⟨calls, w', ?_, heach, hsub, hvisits, hholds⟩
  rw [Callback.forEach_act, bind_of_ok heach]
  rfl

end Straightline
