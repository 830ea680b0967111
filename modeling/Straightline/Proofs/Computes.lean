import Mathlib.Data.List.Basic
import Mathlib.Data.List.Nodup
import Straightline.Proofs.Holding

/-!
# Actions as functions on programs

`Computes x p a q` says that the action `x`, run on any store that holds the program `p`, succeeds
with the result `a` and leaves a store that holds `q`. It composes along `do`, so that a pass is
reasoned about on programs alone: no later file looks at slots or links.

The lemmas follow the store's operations: looking at an instruction, changing one, asking whether
one is live, taking one out, adding one at either end. The last section is about walks. A walk along
the program order visits the instructions of the order it started with, one after the other, except
those that are gone when their turn comes (`Program.foldLive`).
-/

set_option autoImplicit false

namespace Straightline

/-- On every store that holds `p` the action succeeds with `a` and leaves a store that holds `q`. -/
def Computes {α : Type} (x : Action α) (p : Program) (a : α) (q : Program) : Prop :=
  ∀ w : Workspace, w.store.Holds p → ∃ w', x w = .ok a w' ∧ w'.store.Holds q

section Rules

variable {α β : Type} {p q r : Program}

/-- An action that only gives a value computes it. -/
theorem computes_pure (a : α) : Computes (pure a) p a p := fun w h => ⟨w, rfl, h⟩

/-- What two actions compute, they compute one after the other. -/
theorem Computes.bind {x : Action α} {f : α → Action β} {a : α} {b : β}
    (hx : Computes x p a q) (hf : Computes (f a) q b r) : Computes (x >>= f) p b r := by
  intro w h
  obtain ⟨w₁, h₁, hq⟩ := hx w h
  obtain ⟨w₂, h₂, hr⟩ := hf w₁ hq
  exact ⟨w₂, by simp [Bind.bind, EStateM.bind, h₁, h₂], hr⟩

/-- The run of such an action on one workspace. -/
theorem Computes.run {x : Action α} {a : α} {w : Workspace} {P : α → Prop} (hx : Computes x p a q)
    (h : w.store.Holds p) (ha : P a) : ∃ r w', x w = .ok r w' ∧ P r := by
  obtain ⟨w', hw', -⟩ := hx w h
  exact ⟨a, w', hw', ha⟩

/-- What follows an action runs on the workspace that the action left. -/
theorem bind_of_ok {x : Action α} {f : α → Action β} {a : α} {w w' : Workspace}
    (h : x w = .ok a w') : (x >>= f) w = f a w' := by
  simp [Bind.bind, EStateM.bind, h]

/-- Whether an action that may be refused is carried out. -/
def succeeds {ε : Type} (x : Action (Except ε α)) (w : Workspace) : Bool :=
  match x w with
  | .ok (.ok _) _ => true
  | _ => false

theorem exists_of_succeeds {ε : Type} {x : Action (Except ε α)} {w : Workspace}
    (h : succeeds x w = true) : ∃ a w', x w = .ok (.ok a) w' := by
  unfold succeeds at h
  split at h
  · rename_i a w' hw
    exact ⟨a, w', hw⟩
  · simp at h

/-- The workspace that an action leaves if it is carried out. -/
def after? {ε : Type} (x : Action (Except ε α)) (w : Workspace) : Option Workspace :=
  match x w with
  | .ok (.ok _) w' => some w'
  | _ => none

/-- Where a workspace is left, the action was carried out. -/
theorem exists_of_after? {ε : Type} {x : Action (Except ε α)} {w w' : Workspace}
    (h : w' ∈ after? x w) : ∃ a, x w = .ok (.ok a) w' := by
  unfold after? at h
  split at h
  · rename_i a w₁ hw
    obtain rfl := Option.some.inj h
    exact ⟨a, hw⟩
  · simp at h

/-- What an action gives unless it ends in a fault. -/
def result? (x : Action α) (w : Workspace) : Option α :=
  match x w with
  | .ok a _ => some a
  | .error _ _ => none

/-- Where there is a result, a run has given it. -/
theorem exists_of_result? {x : Action α} {w : Workspace} {a : α} (h : a ∈ result? x w) :
    ∃ w', x w = .ok a w' := by
  unfold result? at h
  split at h
  · rename_i b w' hw
    obtain rfl := Option.some.inj h
    exact ⟨w', hw⟩
  · simp at h

/-- The workspace that an action leaves unless it ends in a fault. -/
def left? (x : Action α) (w : Workspace) : Option Workspace :=
  match x w with
  | .ok _ w' => some w'
  | .error _ _ => none

/-- Where a workspace is left, a run has left it. -/
theorem exists_of_left? {x : Action α} {w w' : Workspace} (h : w' ∈ left? x w) :
    ∃ a, x w = .ok a w' := by
  unfold left? at h
  split at h
  · rename_i a w₁ hw
    obtain rfl := Option.some.inj h
    exact ⟨a, hw⟩
  · simp at h

/-- A change of the workspace that leaves the store alone computes nothing. -/
theorem computes_modify (f : Workspace → Workspace) (hf : ∀ w, (f w).store = w.store) :
    Computes (modify f) p () p :=
  fun w h => ⟨f w, rfl, by rw [hf]; exact h⟩

/-- A report has no influence on the program. -/
theorem computes_report (e : Event) : Computes (report e) p () p :=
  computes_modify _ fun _ => rfl

/-- Actions over a list compute a fold over the list, as long as each keeps an invariant that the
next one needs. -/
theorem computes_forM {f : α → Action Unit} {step : Program → α → Program}
    (Inv : Program → Prop) (l : List α)
    (hstep : ∀ q a, a ∈ l → Inv q → Computes (f a) q () (step q a) ∧ Inv (step q a))
    (hp : Inv p) : Computes (l.forM f) p () (l.foldl step p) ∧ Inv (l.foldl step p) := by
  induction l generalizing p with
  | nil => exact ⟨computes_pure (), hp⟩
  | cons a l ih =>
      obtain ⟨ha, hinv⟩ := hstep p a (by simp) hp
      obtain ⟨hl, hend⟩ := ih (fun q b hb => hstep q b (by simp [hb])) hinv
      exact ⟨ha.bind hl, hend⟩

end Rules

section Access

variable {α : Type} {p : Program} {id : InstId}

/-- Looking at an instruction gives what the program has there. -/
theorem computes_read (hk : p.Known id) (f : Inst → α) :
    Computes (read id f) p (f (p.inst id)) p := by
  intro w h
  obtain ⟨t, ht, hi, hf⟩ := h.slot_of_known hk
  exact ⟨w, by rw [read, readSlot_of_shared _ ht hf, hi], h⟩

/-- Changing an instruction changes it in the program. -/
theorem computes_edit (hk : p.Known id) (f : Inst → Inst) :
    Computes (edit id f) p () (p.modify id f) := by
  intro w h
  obtain ⟨t, ht, -, hf⟩ := h.slot_of_known hk
  exact ⟨_, editSlot_of_free _ ht hf, h.modify hk f _ fun _ _ => rfl⟩

/-- An update with an answer changes one instruction and answers from it. -/
theorem computes_editGet (hk : p.Known id) (f : Inst → α × Inst) :
    Computes (editGet id f) p (f (p.inst id)).1 (p.modify id fun i => (f i).2) := by
  intro w h
  obtain ⟨t, ht, hi, hf⟩ := h.slot_of_known hk
  refine ⟨{ w with store := w.store.modifySlot id fun u => { u with inst := (f t.inst).2 } },
    ?_, ?_⟩
  · simp [editGet, Bind.bind, EStateM.bind, getSlot_of_some ht, allowUpdate, hf, pure, EStateM.pure,
      run_modifyStore, hi]
  · refine h.modify hk _ _ fun u hu => ?_
    rw [ht] at hu
    cases hu
    rfl

/-- A change that is made only where `f` has one. -/
theorem computes_editIf (hk : p.Known id) (f : Inst → Option (Inst × α)) :
    Computes (editIf id f) p ((f (p.inst id)).map (·.2))
      (p.modify id fun i => ((f i).map (·.1)).getD i) := by
  have h : Computes (editIf id f) p _ _ := computes_editGet hk _
  convert h using 2
  · cases f (p.inst id) <;> rfl
  · funext i
    cases f i <;> rfl

/-- An instruction is live when it is in the order. -/
theorem isLive_eq {w : Workspace} (h : w.store.Holds p) (hk : p.Known id) :
    isLive id w = .ok (decide (id ∈ p.order)) w := by
  obtain ⟨t, ht, -, -⟩ := h.slot_of_known hk
  have hne : id ≠ .absent := by
    rintro rfl
    simp [Program.Known, InstId.absent] at hk
  have hlive : t.live = decide (id ∈ p.order) := by
    rw [Bool.eq_iff_iff, h.live id t ht, decide_eq_true_iff]
  simp [isLive, hne, Bind.bind, EStateM.bind, getSlot_of_some ht, pure, EStateM.pure, hlive]

/-- An identity is live if it is in the order. -/
theorem computes_isLive (hk : p.Known id) :
    Computes (isLive id) p (decide (id ∈ p.order)) p :=
  fun w h => ⟨w, isLive_eq h hk, h⟩

/-- The link after an instruction leads to what follows it in the order. -/
theorem computes_next {left right : List InstId} (ho : p.order = left ++ id :: right) :
    Computes (next id) p right.head? p := by
  intro w h
  have hid : id ∈ p.order := by simp [ho]
  obtain ⟨t, ht, -, hf⟩ := h.slot_of_mem hid
  exact ⟨w, by rw [next, readSlot_of_shared _ ht hf, (h.linked left id right ho t ht).2], h⟩

end Access

section Order

variable {p : Program} {id : InstId}

/-- A link is changed where the slot at its end is not in use. -/
theorem setNext_eq {w : Workspace} (before after : Option InstId)
    (hb : ∀ x, before = some x → ∃ t, w.store.slot? x = some t ∧ t.hold = .shared 0) :
    setNext before after w = .ok () { w with store := w.store.withNext before after } := by
  cases before with
  | none => rfl
  | some x =>
      obtain ⟨t, ht, hf⟩ := hb x rfl
      exact editSlot_of_free _ ht hf

/-- Setting a back link changes one slot, or the end of the list. -/
theorem setPrev_eq {w : Workspace} (after before : Option InstId)
    (ha : ∀ x, after = some x → ∃ t, w.store.slot? x = some t ∧ t.hold = .shared 0) :
    setPrev after before w = .ok () { w with store := w.store.withPrev after before } := by
  cases after with
  | none => rfl
  | some x =>
      obtain ⟨t, ht, hf⟩ := ha x rfl
      exact editSlot_of_free _ ht hf

/-- Taking a live instruction out of the order. -/
theorem computes_unlink (hm : id ∈ p.order) : Computes (unlink id) p () (p.remove id) := by
  intro w h
  obtain ⟨left, right, ho⟩ := List.append_of_mem hm
  obtain ⟨t, ht, -, hf⟩ := h.slot_of_mem hm
  obtain ⟨hprev, hnext⟩ := h.linked left id right ho t ht
  refine ⟨{ w with store := w.store.unlinked id t }, ?_, h.remove hm ht⟩
  -- the two neighbours are slots that nothing holds, before and after the links of `id` are cut
  have hnear : ∀ x ∈ p.order, ∀ f : Slot → Slot, (∀ u, (f u).hold = u.hold) →
      ∃ u, (w.store.modifySlot id f).slot? x = some u ∧ u.hold = .shared 0 := by
    intro x hx f hfu
    obtain ⟨u, hu, -, huf⟩ := h.slot_of_mem hx
    by_cases hxid : x = id
    · subst hxid
      exact ⟨f u, by simp [hu], by rw [hfu, huf]⟩
    · exact ⟨u, by rw [Store.slot?_modifySlot_of_ne h.unshared _ hxid, hu], huf⟩
  have hlive : isLive id w = .ok true w := by
    simpa [hm] using isLive_eq h (h.known id hm)
  have hcut := editSlot_of_free (w := w) (fun u => { u with prev := none, next := none }) ht hf
  set w₁ : Workspace :=
    { w with store := w.store.modifySlot id fun u => { u with prev := none, next := none } }
  have hset := setNext_eq (w := w₁) t.prev t.next (by
    intro x hx
    exact hnear x (by simp [ho, List.mem_of_getLast? (hprev ▸ hx)]) _ fun _ => rfl)
  set w₂ : Workspace := { w₁ with store := w₁.store.withNext t.prev t.next }
  have hset' := setPrev_eq (w := w₂) t.next t.prev (by
    intro x hx
    obtain ⟨u, hu, huf⟩ := hnear x (by simp [ho, List.mem_of_head? (hnext ▸ hx)])
      (fun u => { u with prev := none, next := none }) fun _ => rfl
    refine ⟨{ u with next := if t.prev = some x then t.next else u.next }, ?_, huf⟩
    show (w₁.store.withNext t.prev t.next).slot? x = _
    rw [Store.slot?_withNext (Store.unshared_modifySlot h.unshared id _), hu]
    rfl)
  simp only [unlink, Bind.bind, EStateM.bind, hlive, if_true, getSlot_of_some ht, hcut, hset, hset']
  rfl

/-- The slots of the order are there, and not in use, once a new one has been placed. -/
theorem slot_of_placed {w : Workspace} (h : w.store.Holds p) (hm : id ∈ p.order) (i : Inst)
    (change : Slot → Slot) :
    ∃ t, (w.store.placed i change).slot? id = some t ∧ t.hold = .shared 0 := by
  obtain ⟨t, ht, -, hf⟩ := h.slot_of_mem hm
  have hne : id ≠ w.store.nextId := by
    rw [h.nextId_eq]
    exact Program.ne_nextId_of_known (h.known id hm)
  exact ⟨t, by rw [Store.slot?_placed h.unshared, if_neg hne, ht], hf⟩

/-- A new instruction at the end. -/
theorem append_eq {w : Workspace} (h : w.store.Holds p) (i : Inst) :
    append (.made i) w = .ok w.store.nextId { w with store := w.store.appended i } := by
  have hset := setNext_eq
    (w := { w with store := w.store.placed i fun t => { t with prev := w.store.tail } })
    w.store.tail (some w.store.nextId)
    fun x hx => slot_of_placed h (List.mem_of_getLast? (h.tail ▸ hx)) i _
  simp only [append, allocate, occupy, Bind.bind, EStateM.bind, run_get, run_modifyStore, pure,
    EStateM.pure]
  rw [← Store.placed, hset]
  rfl

/-- A new instruction at the beginning. -/
theorem prepend_eq {w : Workspace} (h : w.store.Holds p) (i : Inst) :
    prepend (.made i) w = .ok w.store.nextId { w with store := w.store.prepended i } := by
  have hset := setPrev_eq
    (w := { w with store := w.store.placed i fun t => { t with next := w.store.head } })
    w.store.head (some w.store.nextId)
    fun x hx => slot_of_placed h (List.mem_of_head? (h.head ▸ hx)) i _
  simp only [prepend, allocate, occupy, Bind.bind, EStateM.bind, run_get, run_modifyStore, pure,
    EStateM.pure]
  rw [← Store.placed, hset]
  rfl

/-- Prepending puts a new instruction in front. -/
theorem computes_prepend (i : Inst) : Computes (prepend (.made i)) p p.nextId (p.prepend i) :=
  fun w h => ⟨{ w with store := w.store.prepended i }, h.nextId_eq ▸ prepend_eq h i, h.prepend i⟩

end Order

section Walks

variable {β : Type}

/-- Visits the identities of a list that are live when their turn comes. -/
def Program.foldLive (step : β → Program → InstId → β × Program) (ids : List InstId)
    (start : β × Program) : β × Program :=
  ids.foldl (fun s id => if id ∈ s.2.order then step s.1 s.2 id else s) start

/-- What a walk relies on at each visit of `id`: the order only loses instructions, and if `id` is
lost then what follows it is not. -/
structure Program.Survives (p : Program) (id : InstId) (q : Program) : Prop where
  order : q.order.Sublist p.order
  size : p.size ≤ q.size
  ahead : id ∈ q.order ∨
    ∀ left right y, p.order = left ++ id :: right → right.head? = some y → y ∈ q.order

/-- A visit that keeps the order loses nothing. -/
theorem Program.Survives.of_order_eq {p q : Program} {id : InstId} (hid : id ∈ p.order)
    (ho : q.order = p.order) (hs : q.size = p.size) : p.Survives id q where
  order := by rw [ho]
  size := by omega
  ahead := .inl (by rw [ho]; exact hid)

/-- A visit may take out one instruction, its own or another one. -/
theorem Program.Survives.of_erase {p q : Program} {id x : InstId} (hn : p.order.Nodup)
    (hid : id ∈ p.order) (ho : q.order = p.order.erase x) (hs : q.size = p.size) :
    p.Survives id q where
  order := by rw [ho]; exact List.erase_sublist
  size := by omega
  ahead := by
    by_cases hx : id = x
    · refine .inr fun left right y hsplit hy => ?_
      rw [ho, hn.mem_erase_iff]
      have hyr : y ∈ right := List.mem_of_head? hy
      refine ⟨?_, by simp [hsplit, hyr]⟩
      rintro rfl
      rw [hsplit] at hn
      have := (List.nodup_cons.mp (List.nodup_append.mp hn).2.1).1
      exact this (hx ▸ hyr)
    · exact .inl (by rw [ho, hn.mem_erase_iff]; exact ⟨hx, hid⟩)

/-- A sublist of a list without repetitions is what a filter leaves of it. -/
theorem filter_mem_eq_of_sublist {l m : List InstId} (hn : m.Nodup) (h : l.Sublist m) :
    m.filter (· ∈ l) = l := by
  have hself : l.filter (· ∈ l) = l := List.filter_eq_self.mpr (by simp)
  have hsub : l.Sublist (m.filter (· ∈ l)) := by
    have := h.filter (· ∈ l)
    rwa [hself] at this
  refine (hsub.eq_of_length_le ?_).symm
  refine (List.subperm_of_subset (hn.filter _) ?_).length_le
  intro x hx
  simpa using (List.mem_filter.mp hx).2

/-- A visit splits the order that it leaves at the visited instruction. -/
theorem Program.Survives.order_split {p q : Program} {id : InstId} {left right : List InstId}
    (hs : p.Survives id q) (hn : p.order.Nodup) (ho : p.order = left ++ id :: right) :
    q.order = left.filter (· ∈ q.order) ++
      ((if id ∈ q.order then [id] else []) ++ right.filter (· ∈ q.order)) := by
  have := filter_mem_eq_of_sublist hn hs.order
  rw [ho, List.filter_append, List.filter_cons] at this
  split at this <;> simp_all

/-- The walk from any place on visits what is left of the order. `done` is the part behind, and the
invariant may speak about the identities still ahead. -/
theorem computes_foldFrom {visit : β → InstId → Action β}
    {step : β → Program → InstId → β × Program} (Inv : List InstId → β → Program → Prop)
    (hskip : ∀ id rest b q, Inv (id :: rest) b q → id ∉ q.order → Inv rest b q)
    (hstep : ∀ id rest b q, Inv (id :: rest) b q → q.order.Nodup → id ∈ q.order →
      Computes (visit b id) q (step b q id).1 (step b q id).2 ∧
      Inv rest (step b q id).1 (step b q id).2 ∧ q.Survives id (step b q id).2)
    (ids done : List InstId) (steps : Nat) (b : β) (q : Program) (hinv : Inv ids b q)
    (ho : q.order = done ++ ids.filter (· ∈ q.order)) (hl : ids.length ≤ steps) :
    Computes (foldFrom visit steps (ids.filter (· ∈ q.order)).head? b) q
      (Program.foldLive step ids (b, q)).1 (Program.foldLive step ids (b, q)).2 := by
  induction ids generalizing done steps b q with
  | nil =>
      have : foldFrom visit steps (([] : List InstId).filter (· ∈ q.order)).head? b = pure b := by
        cases steps <;> rfl
      rw [this]
      exact computes_pure b
  | cons id ids ih =>
      by_cases hid : id ∈ q.order
      · intro w hw
        obtain ⟨steps, rfl⟩ : ∃ n, steps = n + 1 := ⟨steps - 1, by simp at hl; omega⟩
        obtain ⟨hvisit, hinv', hs⟩ := hstep id ids b q hinv hw.nodup hid
        set q' := (step b q id).2
        set b' := (step b q id).1
        rw [List.filter_cons_of_pos (by simpa using hid)] at ho ⊢
        have hsplit := hs.order_split hw.nodup ho
        -- what is left of the rest of the walk
        have hrest : (ids.filter (· ∈ q.order)).filter (· ∈ q'.order) =
            ids.filter (· ∈ q'.order) := by
          rw [List.filter_filter]
          refine List.filter_congr fun x _ => ?_
          by_cases hx : x ∈ q'.order
          · simp [hx, hs.order.subset hx]
          · simp [hx]
        rw [hrest] at hsplit
        -- the way ahead after the visit
        have hahead : Computes (nextUnless (ids.filter (· ∈ q.order)).head? id) q'
            (ids.filter (· ∈ q'.order)).head? q' := by
          have hk : q'.Known id := by
            have := hw.known id hid
            have := hs.size
            simp only [Program.Known] at *
            omega
          refine (computes_isLive hk).bind ?_
          by_cases hlive : id ∈ q'.order
          · rw [if_pos hlive] at hsplit
            simp only [hlive, decide_true, if_true]
            rw [List.singleton_append] at hsplit
            exact computes_next hsplit
          · simp only [hlive, decide_false, Bool.false_eq_true, if_false]
            have hhead : (ids.filter (· ∈ q.order)).head? = (ids.filter (· ∈ q'.order)).head? := by
              rw [← hrest]
              cases hcase : ids.filter (· ∈ q.order) with
              | nil => rfl
              | cons y ys =>
                  have hy := (hs.ahead.resolve_left hlive) done _ y ho (by simp [hcase])
                  simp [hy]
            rw [hhead]
            exact computes_pure _
        have hlive : Program.foldLive step (id :: ids) (b, q) =
            Program.foldLive step ids (b', q') := by
          simp [Program.foldLive, hid, b', q']
        rw [hlive]
        have hgo := ih (done.filter (· ∈ q'.order) ++ if id ∈ q'.order then [id] else []) steps b'
          q' hinv' (by simpa [List.append_assoc] using hsplit) (by simpa using hl)
        exact (computes_next ho).bind (hvisit.bind (hahead.bind hgo)) w hw
      · rw [List.filter_cons_of_neg (by simpa using hid)] at ho ⊢
        have : Program.foldLive step (id :: ids) (b, q) = Program.foldLive step ids (b, q) := by
          simp [Program.foldLive, hid]
        rw [this]
        exact ih done steps b q (hskip id ids b q hinv hid) ho (by simp at hl; omega)

/-- A walk visits the order it started with, except what is gone when its turn comes. -/
theorem computes_foldEach {visit : β → InstId → Action β}
    (step : β → Program → InstId → β × Program) (Inv : β → Program → Prop)
    (hstep : ∀ b q id, Inv b q → q.order.Nodup → id ∈ q.order →
      Computes (visit b id) q (step b q id).1 (step b q id).2 ∧
      Inv (step b q id).1 (step b q id).2 ∧ q.Survives id (step b q id).2)
    {b : β} {p : Program} (hinv : Inv b p) :
    Computes (foldEach visit b) p (Program.foldLive step p.order (b, p)).1
      (Program.foldLive step p.order (b, p)).2 := by
  intro w hw
  have hself : p.order.filter (· ∈ p.order) = p.order := List.filter_eq_self.mpr (by simp)
  have h := computes_foldFrom (fun _ => Inv) (fun _ _ _ _ h _ => h)
    (fun id _ b q h hn hid => hstep b q id h hn hid) p.order [] w.store.slots.size b p hinv
    (by simp [hself]) hw.length_order_le w hw
  rw [hself, ← hw.head] at h
  exact h

/-- What one visit keeps, a walk keeps. The invariant may speak about the identities still ahead. -/
theorem Program.foldLive_induction_ahead {step : β → Program → InstId → β × Program}
    (Inv : List InstId → β → Program → Prop)
    (hskip : ∀ id rest b q, Inv (id :: rest) b q → id ∉ q.order → Inv rest b q)
    (hstep : ∀ id rest b q, Inv (id :: rest) b q → id ∈ q.order →
      Inv rest (step b q id).1 (step b q id).2)
    (ids : List InstId) {b : β} {p : Program} (h : Inv ids b p) :
    Inv [] (Program.foldLive step ids (b, p)).1 (Program.foldLive step ids (b, p)).2 := by
  induction ids generalizing b p with
  | nil => exact h
  | cons id ids ih =>
      by_cases hid : id ∈ p.order
      · have : Program.foldLive step (id :: ids) (b, p) =
            Program.foldLive step ids (step b p id) := by simp [Program.foldLive, hid]
        rw [this]
        exact ih (hstep id ids b p h hid)
      · have : Program.foldLive step (id :: ids) (b, p) = Program.foldLive step ids (b, p) := by
          simp [Program.foldLive, hid]
        rw [this]
        exact ih (hskip id ids b p h hid)

/-- What every visit keeps, the whole walk keeps. -/
theorem Program.foldLive_induction {step : β → Program → InstId → β × Program}
    (Inv : β → Program → Prop)
    (hstep : ∀ b q id, Inv b q → id ∈ q.order → Inv (step b q id).1 (step b q id).2)
    (ids : List InstId) {b : β} {p : Program} (h : Inv b p) :
    Inv (Program.foldLive step ids (b, p)).1 (Program.foldLive step ids (b, p)).2 :=
  foldLive_induction_ahead (fun _ => Inv) (fun _ _ _ _ h _ => h)
    (fun id _ b q hq hid => hstep b q id hq hid) ids h

end Walks

end Straightline
