import Straightline.Proofs.Consistency

/-!
# What a program means

Instructions run in program order. An operand is the value of a literal, the value of the
instruction it refers to, or the current value of a name; the result is the value of the
instruction, and is written to the destination unless that is a temporary. What the opcodes compute
is left open: an `Interpretation` gives a value to every literal and a function to every opcode.

In a program where each name is written once and read only afterwards, the state at the end explains
every value in it: it is a model (`Interpretation.models_run`). There is one model only, as far as
names are concerned (`Interpretation.Models.names_run`). A transformation that keeps models
therefore keeps what the names hold at the end, and no step by step comparison of runs is needed.
-/

set_option autoImplicit false

namespace Straightline

/-- What literals and opcodes stand for. -/
structure Interpretation (V : Type*) where
  literal : Literal → V
  op : String → List V → V

/-- The values of the instructions so far, and what the names hold. -/
structure State (V : Type*) where
  values : InstId → V
  names : String → V

namespace Interpretation

variable {V : Type*} (I : Interpretation V)

/-- The value of an operand. -/
def operand (s : State V) : Value → V
  | .literal l => I.literal l
  | .ref id => s.values id
  | .name n => s.names n

/-- The value that an instruction computes. -/
def result (s : State V) (i : Inst) : V := I.op i.op (i.args.map (I.operand s))

/-- Runs one instruction. -/
def step (p : Program) (s : State V) (id : InstId) : State V where
  values := Function.update s.values id (I.result s (p.inst id))
  names := if (p.inst id).isTemp then s.names
    else Function.update s.names (p.inst id).dst (I.result s (p.inst id))

/-- Runs a program. -/
def run (p : Program) (s : State V) : State V := p.order.foldl (I.step p) s

end Interpretation

namespace Program

/-- The instruction `id` writes the name `n`. -/
def Defines (p : Program) (id : InstId) (n : String) : Prop :=
  id ∈ p.order ∧ (p.inst id).isTemp = false ∧ (p.inst id).dst = n

/-- Each name is written by one instruction at most, and read only after it. -/
structure SingleAssignment (p : Program) : Prop where
  unique : ∀ {x y : InstId} {n : String}, p.Defines x n → p.Defines y n → x = y
  reads : ∀ {x y : InstId} {n : String}, p.Defines y n → x ∈ p.order →
    .name n ∈ (p.inst x).args → p.Precedes y x

instance (p : Program) : Decidable p.SingleAssignment :=
  decidable_of_iff
    ((∀ x ∈ p.order, ∀ y ∈ p.order, (p.inst x).isTemp = false → (p.inst y).isTemp = false →
        (p.inst y).dst = (p.inst x).dst → x = y) ∧
      ∀ y ∈ p.order, ∀ x ∈ p.order, (p.inst y).isTemp = false →
        .name (p.inst y).dst ∈ (p.inst x).args → [y, x].Sublist p.order)
    ⟨fun h => ⟨fun ⟨hx, htx, hdx⟩ ⟨hy, hty, hdy⟩ => h.1 _ hx _ hy htx hty (hdy.trans hdx.symm),
        fun ⟨hy, hty, hdy⟩ hx hread => h.2 _ hy _ hx hty (hdy.symm ▸ hread)⟩,
      fun h => ⟨fun _ hx _ hy htx hty hd => h.unique ⟨hx, htx, rfl⟩ ⟨hy, hty, hd⟩,
        fun _ hy _ hx hty hread => h.reads ⟨hy, hty, rfl⟩ hx hread⟩⟩

end Program

namespace Interpretation

variable {V : Type*} {I : Interpretation V}

/-- A state that explains every value by the others: instructions have the values they compute,
names hold what was written to them, and names that nothing writes are as they were in `names`. -/
structure Models (I : Interpretation V) (names : String → V) (p : Program) (s : State V) :
    Prop where
  value : ∀ id ∈ p.order, s.values id = I.result s (p.inst id)
  written : ∀ {id : InstId} {n : String}, p.Defines id n → s.names n = s.values id
  kept : ∀ n, (∀ id, ¬ p.Defines id n) → s.names n = names n

/-- The result depends on the operands only. -/
theorem result_congr {s t : State V} {i : Inst}
    (h : ∀ v ∈ i.args, I.operand s v = I.operand t v) : I.result s i = I.result t i := by
  unfold result
  rw [List.map_congr_left h]

/-! ## One instruction -/

section Step

variable {p : Program} {s : State V} {id : InstId}

theorem values_step_self : (I.step p s id).values id = I.result s (p.inst id) :=
  Function.update_self _ _ _

theorem values_step_of_ne {other : InstId} (h : other ≠ id) :
    (I.step p s id).values other = s.values other :=
  Function.update_of_ne h _ _

theorem names_step_self (h : (p.inst id).isTemp = false) :
    (I.step p s id).names (p.inst id).dst = I.result s (p.inst id) := by
  unfold step
  dsimp only
  rw [h, if_neg (by simp)]
  exact Function.update_self _ _ _

theorem names_step_of_ne {n : String} (h : (p.inst id).isTemp = false → (p.inst id).dst ≠ n) :
    (I.step p s id).names n = s.names n := by
  unfold step
  dsimp only
  split
  · rfl
  · rename_i ht
    exact Function.update_of_ne (h (by simpa using ht)).symm _ _

end Step

/-! ## A run ends in a model -/

section Frame

variable {p : Program} {ids : List InstId}

theorem values_foldl_of_not_mem {id : InstId} (h : id ∉ ids) (s : State V) :
    (ids.foldl (I.step p) s).values id = s.values id := by
  induction ids generalizing s with
  | nil => rfl
  | cons x ids ih =>
      obtain ⟨hne, hids⟩ : id ≠ x ∧ id ∉ ids := by simpa using h
      rw [List.foldl_cons, ih hids, values_step_of_ne hne]

theorem names_foldl_of_not_defines {n : String} (h : ∀ id ∈ ids, (p.inst id).isTemp = false →
    (p.inst id).dst ≠ n) (s : State V) : (ids.foldl (I.step p) s).names n = s.names n := by
  induction ids generalizing s with
  | nil => rfl
  | cons x ids ih =>
      rw [List.foldl_cons, ih fun id hid => h id (by simp [hid]), names_step_of_ne (h x (by simp))]

end Frame

/-- The value of an instruction, and the name it writes, are settled when it has run: what it reads
does not change any more, and nothing writes the name again. -/
theorem settled_run {p : Program} (hp : p.Valid) (hs : p.SingleAssignment) (s : State V)
    {id : InstId} (hid : id ∈ p.order) :
    (I.run p s).values id = I.result (I.run p s) (p.inst id) ∧
      ((p.inst id).isTemp = false → (I.run p s).names (p.inst id).dst = (I.run p s).values id) := by
  obtain ⟨left, right, ho⟩ := List.append_of_mem hid
  have hleft : ∀ {r}, p.Precedes r id ↔ r ∈ left := Program.precedes_iff_mem_left hp.nodup ho
  have hahead : ∀ y ∈ id :: right, y ∈ p.order ∧ ¬ p.Precedes y id := by
    intro y hy
    have hnodup := hp.nodup
    rw [ho] at hnodup
    refine ⟨by rw [ho]; exact List.mem_append_right left hy, fun hpre => ?_⟩
    exact List.disjoint_of_nodup_append hnodup (hleft.mp hpre) hy
  have hright : id ∉ right := by
    have hnodup := hp.nodup
    rw [ho] at hnodup
    exact (List.nodup_cons.mp (List.nodup_append'.mp hnodup).2.1).1
  generalize hrun : I.run p s = final
  rw [run, ho, List.foldl_append] at hrun
  generalize left.foldl (I.step p) s = t at hrun
  have hvalue : final.values id = I.result t (p.inst id) := by
    rw [← hrun, List.foldl_cons, values_foldl_of_not_mem hright, values_step_self]
  have hreads : ∀ v ∈ (p.inst id).args, I.operand t v = I.operand final v := by
    intro v hv
    cases v with
    | literal l => rfl
    | ref r =>
        have hr : r ∉ id :: right := fun h => (hahead r h).2 (hp.refs id hid r hv).1
        show t.values r = final.values r
        rw [← hrun, values_foldl_of_not_mem hr]
    | name n =>
        show t.names n = final.names n
        rw [← hrun, names_foldl_of_not_defines]
        intro y hy htemp hdst
        exact (hahead y hy).2 (hs.reads ⟨(hahead y hy).1, htemp, hdst⟩ hid hv)
  refine ⟨hvalue.trans (result_congr hreads), fun htemp => ?_⟩
  rw [hvalue, ← hrun, List.foldl_cons, names_foldl_of_not_defines, names_step_self htemp]
  intro y hy hyt hyd
  have hyo := (hahead y (by simp [hy])).1
  have := hs.unique ⟨hyo, hyt, hyd⟩ ⟨hid, htemp, rfl⟩
  exact hright (this ▸ hy)

/-- The state that a run ends in is a model. -/
theorem models_run {p : Program} (hp : p.Valid) (hs : p.SingleAssignment) (s : State V) :
    I.Models s.names p (I.run p s) where
  value id hid := (settled_run hp hs s hid).1
  written := by
    rintro id n ⟨hid, htemp, rfl⟩
    exact (settled_run hp hs s hid).2 htemp
  kept n hn := names_foldl_of_not_defines (fun id hid ht hd => hn id ⟨hid, ht, hd⟩) s

/-! ## All models agree on the names -/

/-- Where `left` has run and `right` is ahead, the values so far are those of the model, and so are
the names that nothing ahead writes. -/
structure Agrees (p : Program) (m : State V) (left right : List InstId) (s : State V) : Prop where
  values : ∀ id ∈ left, s.values id = m.values id
  names : ∀ n, (∀ id ∈ right, ¬ p.Defines id n) → s.names n = m.names n

section Agreement

variable {p : Program} {names : String → V} {m s : State V} {left right : List InstId}

/-- One more instruction runs as the model says. -/
theorem Agrees.step {id : InstId} (h : Agrees p m left (id :: right) s)
    (hm : I.Models names p m) (hp : p.Valid) (hs : p.SingleAssignment)
    (ho : p.order = left ++ id :: right) : Agrees p m (left ++ [id]) right (I.step p s id) := by
  have hid : id ∈ p.order := by
    rw [ho]
    simp
  have hleft : ∀ {r}, p.Precedes r id ↔ r ∈ left := Program.precedes_iff_mem_left hp.nodup ho
  have hresult : I.result s (p.inst id) = m.values id := by
    rw [hm.value id hid]
    apply result_congr
    intro v hv
    cases v with
    | literal l => rfl
    | ref r => exact h.values r (hleft.mp (hp.refs id hid r hv).1)
    | name n =>
        apply h.names n
        intro y hy hd
        have hnodup := hp.nodup
        rw [ho] at hnodup
        exact List.disjoint_of_nodup_append hnodup (hleft.mp (hs.reads hd hid hv)) hy
  constructor
  · intro x hx
    by_cases hxid : x = id
    · rw [hxid, values_step_self, hresult]
    · rw [values_step_of_ne hxid]
      apply h.values
      simpa [hxid] using hx
  · intro n hn
    by_cases hd : p.Defines id n
    · have hwritten := hm.written hd
      obtain ⟨-, htemp, rfl⟩ := hd
      rw [names_step_self htemp, hresult, hwritten]
    · rw [names_step_of_ne fun ht he => hd ⟨hid, ht, he⟩]
      apply h.names n
      intro y hy
      rcases List.mem_cons.mp hy with rfl | hy
      · exact hd
      · exact hn y hy

/-- All instructions ahead run as the model says. -/
theorem Agrees.foldl (h : Agrees p m left right s) (hm : I.Models names p m) (hp : p.Valid)
    (hs : p.SingleAssignment) (ho : p.order = left ++ right) :
    Agrees p m p.order [] (right.foldl (I.step p) s) := by
  induction right generalizing left s with
  | nil =>
      rw [List.append_nil] at ho
      exact ho ▸ h
  | cons id right ih =>
      exact ih (h.step hm hp hs ho) (by rw [ho, List.append_assoc]; rfl)

/-- Every run ends with the names as they are in any model. -/
theorem Models.names_run (hm : I.Models s.names p m) (hp : p.Valid) (hs : p.SingleAssignment) :
    (I.run p s).names = m.names := by
  have hstart : Agrees p m [] p.order s :=
    ⟨by simp, fun n hn => (hm.kept n fun id hd => hn id hd.1 hd).symm⟩
  funext n
  exact (hstart.foldl hm hp hs rfl).names n (by simp)

end Agreement

end Interpretation

end Straightline
