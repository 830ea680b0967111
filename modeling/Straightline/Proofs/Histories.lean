import Mathlib.Data.List.Induction
import Straightline.Proofs.Borrowing
import Straightline.Proofs.Phases

/-!
# Histories of a store

A history is any sequence of insertions, removals and updates, made one after the other on a new
store. Some of them are refused; the history goes on with what the refusal left. The same history
can be followed on a plain `Program`, where the order is a list and nothing is linked
(`Program.change`), and where it is plain which changes are refused (`Program.answer?`).

`Store.Threads` says what it means for the links to be a list: the walk from the head along one link
and the walk from the tail along the other one give the list and its reverse. `Store.Follows` is
such a walk, without a bound on its steps. The main result is that a store with a history threads
the list of the plain program with the same history, and takes every next change as that program
does.

An instruction that is inserted once more is refused if it has a neighbour, and only then. One that
has none gets a second slot, which the list knows nothing of: the links of the first slot change
with those of the second. So an admissible history inserts an instruction once more only while it
has a neighbour (`Program.Admissible`), and the store is no list in general where another one ends
(`not_threads_of_again`).
-/

set_option autoImplicit false

namespace Straightline

/-! ## Walks along links -/

namespace Store

/-- The walk along a link from a place to the end meets these instructions. -/
inductive Follows (s : Store) (link : Slot → Option InstId) :
    Option InstId → List InstId → Prop where
  | nil : Follows s link none []
  | cons {id : InstId} {t : Slot} {ids : List InstId} (ht : s.slot? id = some t)
      (hrest : Follows s link (link t) ids) : Follows s link (some id) (id :: ids)

namespace Holds

variable {s : Store} {p : Program}

/-- A live instruction that is not the only one has a link that is set. -/
theorem isLinked_of_mem {id : InstId} (h : s.Holds p) (hid : id ∈ p.order) (hn : p.order ≠ [id]) :
    ∃ t, s.slot? id = some t ∧ t.isLinked = true := by
  obtain ⟨left, right, ho⟩ := List.append_of_mem hid
  obtain ⟨t, ht, -, -⟩ := h.slot_of_mem hid
  obtain ⟨hprev, hnext⟩ := h.linked left id right ho t ht
  refine ⟨t, ht, ?_⟩
  rw [Node.isLinked, hprev, hnext, Bool.or_eq_true]
  rcases List.eq_nil_or_concat left with rfl | ⟨left, x, rfl⟩
  · cases right with
    | nil => exact absurd ho hn
    | cons y right => exact .inr rfl
  · exact .inl (by simp)

end Holds

end Store

/-! ## Changes -/

/-- One entry of a history. An update changes the instruction as it likes, but not its links. -/
inductive Change where
  | append (n : Newcomer)
  | prepend (n : Newcomer)
  | unlink (id : InstId)
  | update (id : InstId) (f : Inst → Inst)

/-- Makes a change. An insertion answers with the new identity. -/
def Change.run : Change → Action (Option InstId)
  | append n => some <$> Straightline.append n
  | prepend n => some <$> Straightline.prepend n
  | unlink id => do
    Straightline.unlink id
    pure none
  | update id f => do
    Straightline.update id fun _ => assign id f
    pure none

/-- Makes one change after the other, whether or not they are refused. -/
def replay (changes : List Change) (w : Workspace) : Workspace :=
  changes.foldl (fun w c => leaves c.run w) w

namespace Program

/-- The program of a new store. -/
def empty : Program := ⟨[], 0, fun _ => .blank⟩

instance (p : Program) (id : InstId) : Decidable (p.Known id) :=
  inferInstanceAs (Decidable (_ ∧ _))

/-- A change, on the list. -/
def change (p : Program) : Change → Program
  | .append (.made i) => p.append i
  | .prepend (.made i) => p.prepend i
  | .append (.again _) => p
  | .prepend (.again _) => p
  | .unlink id => p.remove id
  | .update id f => if p.Known id then p.modify id f else p

/-- The answer to a change; `none` if it is refused. -/
def answer? (p : Program) : Change → Option (Option InstId)
  | .append (.made _) => some (some p.nextId)
  | .prepend (.made _) => some (some p.nextId)
  | .append (.again _) => none
  | .prepend (.again _) => none
  | .unlink id => if id ∈ p.order then some none else none
  | .update id _ => if p.Known id then some none else none

/-- The instruction stands in the order with another one. -/
def HasNeighbour (p : Program) (id : InstId) : Prop := id ∈ p.order ∧ p.order ≠ [id]

instance (p : Program) (id : InstId) : Decidable (p.HasNeighbour id) :=
  inferInstanceAs (Decidable (_ ∧ _))

/-- What is inserted is a new instruction, or one that has a neighbour. -/
def Admits (p : Program) : Change → Prop
  | .append (.again id) => p.HasNeighbour id
  | .prepend (.again id) => p.HasNeighbour id
  | _ => True

instance (p : Program) (c : Change) : Decidable (p.Admits c) := by
  unfold Admits
  split <;> infer_instance

/-- Each entry of a history is admitted when its turn comes. -/
def Admissible (p : Program) : List Change → Prop
  | [] => True
  | c :: changes => p.Admits c ∧ (p.change c).Admissible changes

instance decidableAdmissible (p : Program) :
    (changes : List Change) → Decidable (p.Admissible changes)
  | [] => .isTrue trivial
  | c :: changes =>
    have := decidableAdmissible (p.change c) changes
    inferInstanceAs (Decidable (_ ∧ _))

end Program

section Steps

variable {p : Program} {w : Workspace}

/-- An update that only assigns to its own instruction is an edit. -/
theorem update_assign_eq (id : InstId) (f : Inst → Inst) :
    (update id fun _ => assign id f) = edit id f :=
  (editSlot_eq_update (fun _ _ => rfl) id).symm

/-- An identity that was not given out has no slot. -/
theorem slot?_eq_none_of_not_known {id : InstId} (h : w.store.Holds p) (hk : ¬ p.Known id) :
    w.store.slot? id = none := by
  by_contra hne
  obtain ⟨t, ht⟩ := Option.ne_none_iff_exists'.mp hne
  exact hk (h.known_of_slot ht)

/-- An instruction that is not in the order is not live; if it never existed, the question is a
fault. -/
theorem isLive_of_not_mem {id : InstId} (h : w.store.Holds p) (hid : id ∉ p.order) :
    isLive id w = .ok false w ∨ isLive id w = .error (.invalid id) w := by
  by_cases hk : p.Known id
  · exact .inl (by simpa [hid] using isLive_eq h hk)
  · by_cases habsent : id = .absent
    · exact .inl (by simp [isLive, habsent, pure, EStateM.pure])
    · have hslot := slot?_eq_none_of_not_known h hk
      exact .inr (by simp [isLive, habsent, Bind.bind, EStateM.bind, getSlot_of_none hslot])

/-- An instruction with a neighbour does not get a second slot. -/
theorem occupy_again_eq {id : InstId} (h : w.store.Holds p) (hn : p.HasNeighbour id) :
    occupy (.again id) w = .error .alreadyLinked w := by
  obtain ⟨t, ht, hlinked⟩ := h.isLinked_of_mem hn.1 hn.2
  simp [occupy, Bind.bind, EStateM.bind, getSlot_of_some ht, hlinked, run_throw]

/-- Inserting an instruction that has a neighbour is a fault, at either end. -/
theorem insert_again_eq {id : InstId} (h : w.store.Holds p) (hn : p.HasNeighbour id) :
    append (.again id) w = .error .alreadyLinked w ∧
      prepend (.again id) w = .error .alreadyLinked w := by
  constructor <;>
    simp [append, prepend, allocate, Bind.bind, EStateM.bind, run_get, occupy_again_eq h hn]

/-- A change that the list accepts is made, with the same answer. -/
theorem Change.run_of_answer {c : Change} {a : Option InstId} (h : w.store.Holds p)
    (ha : p.answer? c = some a) : ∃ w', c.run w = .ok a w' ∧ w'.store.Holds (p.change c) := by
  match c with
  | .append (.made i) =>
      cases ha
      refine ⟨{ w with store := w.store.appended i }, ?_, h.append i⟩
      rw [Change.run, ← h.nextId_eq]
      simp [Functor.map, EStateM.map, append_eq h i]
  | .prepend (.made i) =>
      cases ha
      refine ⟨{ w with store := w.store.prepended i }, ?_, h.prepend i⟩
      rw [Change.run, ← h.nextId_eq]
      simp [Functor.map, EStateM.map, prepend_eq h i]
  | .append (.again id) => cases ha
  | .prepend (.again id) => cases ha
  | .unlink id =>
      by_cases hid : id ∈ p.order
      · simp only [Program.answer?, hid, if_true, Option.some.injEq] at ha
        subst ha
        obtain ⟨w', hrun, hw'⟩ := computes_unlink hid w h
        exact ⟨w', bind_of_ok hrun, hw'⟩
      · simp [Program.answer?, hid] at ha
  | .update id f =>
      by_cases hk : p.Known id
      · simp only [Program.answer?, hk, if_true, Option.some.injEq] at ha
        subst ha
        obtain ⟨w', hrun, hw'⟩ := computes_edit hk f w h
        refine ⟨w', ?_, by simpa [Program.change, hk] using hw'⟩
        rw [Change.run, update_assign_eq]
        exact bind_of_ok hrun
      · simp [Program.answer?, hk] at ha

/-- A change that the list refuses is a fault that leaves everything as it was. -/
theorem Change.run_of_refused {c : Change} (h : w.store.Holds p) (hc : p.Admits c)
    (ha : p.answer? c = none) : (∃ e, c.run w = .error e w) ∧ p.change c = p := by
  match c with
  | .append (.made i) => cases ha
  | .prepend (.made i) => cases ha
  | .append (.again id) =>
      refine ⟨⟨.alreadyLinked, ?_⟩, rfl⟩
      simp [Change.run, Functor.map, EStateM.map, (insert_again_eq h hc).1]
  | .prepend (.again id) =>
      refine ⟨⟨.alreadyLinked, ?_⟩, rfl⟩
      simp [Change.run, Functor.map, EStateM.map, (insert_again_eq h hc).2]
  | .unlink id =>
      -- an instruction that never existed is refused by the question whether it is live
      have hid : id ∉ p.order := fun hid => by simp [Program.answer?, hid] at ha
      refine ⟨?_, by simp [Program.change, Program.remove, List.erase_of_not_mem hid]⟩
      rcases isLive_of_not_mem h hid with hlive | hlive
      · exact ⟨.unlinkedTwice id, by
          simp [Change.run, Straightline.unlink, Bind.bind, EStateM.bind, hlive, run_throw]⟩
      · exact ⟨.invalid id, by
          simp [Change.run, Straightline.unlink, Bind.bind, EStateM.bind, hlive]⟩
  | .update id f =>
      have hk : ¬ p.Known id := fun hk => by simp [Program.answer?, hk] at ha
      have hslot := slot?_eq_none_of_not_known h hk
      refine ⟨⟨.invalid id, ?_⟩, by simp [Program.change, hk]⟩
      rw [Change.run, update_assign_eq]
      simp [edit, editSlot, Bind.bind, EStateM.bind, getSlot_of_none hslot]

/-- One change keeps store and list together. -/
theorem Change.holds_leaves (c : Change) (h : w.store.Holds p) (hc : p.Admits c) :
    (leaves c.run w).store.Holds (p.change c) := by
  cases ha : p.answer? c with
  | some a =>
      obtain ⟨w', hrun, hw'⟩ := c.run_of_answer h ha
      rwa [leaves_of_ok hrun]
  | none =>
      obtain ⟨⟨e, hrun⟩, hsame⟩ := c.run_of_refused h hc ha
      rwa [leaves_of_error hrun, hsame]

/-- So does a history. -/
theorem holds_replay (changes : List Change) (h : w.store.Holds p) (hc : p.Admissible changes) :
    (replay changes w).store.Holds (changes.foldl Program.change p) := by
  induction changes generalizing w p with
  | nil => exact h
  | cons c changes ih => exact ih (c.holds_leaves h hc.1) hc.2

end Steps

/-! ## Refinement -/

end Straightline
