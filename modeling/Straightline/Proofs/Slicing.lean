import Mathlib.Logic.Function.Iterate
import Straightline.Proofs.Frames
import Straightline.Proofs.Reading
import Straightline.Proofs.Rendering
import Straightline.Proofs.Rewrites

/-!
# Dead code and the backward slice

One removal of dead code does not cascade: it works on the use-sets as they were before it.
Analysing and removing again and again does, and ends in the backward slice (`slice_of_clean`): the
instructions with a named destination and whatever these refer to, directly or not
(`Program.Needed`).

A round never takes out a needed instruction (`needed_cleaned`). A round that takes out nothing has
reached its limit (`cleaned_cleaned`), and there every instruction is needed, since the last one
that was not would have no consumer (`needed_of_fixed`). A program of `n` instructions gets there
within `n` rounds, because every earlier round takes out an instruction (`cleaned_iterate_fixed`).
-/

set_option autoImplicit false

namespace Straightline

/-- Analyses the program and removes the dead code, so many times. -/
def clean : Nat → Action Unit
  | 0 => pure ()
  | k + 1 => do
    analyze
    deadCode
    clean k

namespace Program

/-- What the named results of a program depend on: an instruction with a named destination, and
whatever a needed instruction refers to. -/
inductive Needed (p : Program) : InstId → Prop where
  | named {id : InstId} (hid : id ∈ p.order) (h : (p.inst id).isTemp = false) : Needed p id
  | operand {id r : InstId} (h : Needed p id) (hr : .ref r ∈ (p.inst id).args) : Needed p r

variable {p : Program} {id : InstId}

/-! ## One round -/

/-- Visiting the rest of the order removes what is dead there; `done` is the part behind. -/
theorem foldLive_removeDead (ids done : List InstId) {q : Program} (ho : q.order = done ++ ids)
    (hn : q.order.Nodup) :
    foldLive (fun _ q id => ((), q.removeDead id)) ids ((), q) =
      ((), { q with order := done ++ ids.filter fun id => !(q.inst id).isDead }) := by
  induction ids generalizing done q with
  | nil => simp [foldLive, ← ho]
  | cons id ids ih =>
      have hfold : foldLive (fun _ q id => ((), q.removeDead id)) (id :: ids) ((), q) =
          foldLive (fun _ q id => ((), q.removeDead id)) ids ((), q.removeDead id) := by
        simp [foldLive, ho]
      rw [hfold]
      by_cases hd : (q.inst id).isDead = true
      · have hnot : id ∉ done := by
          rw [ho] at hn
          exact fun h => (List.nodup_cons.mp (List.nodup_middle.mp hn)).1 (by simp [h])
        have hrest : (q.remove id).order = done ++ ids := by
          rw [order_remove, ho, List.erase_append_right _ hnot, List.erase_cons_head]
        rw [removeDead, if_pos hd, ih done hrest (hn.erase id)]
        simp [hd, remove]
      · rw [removeDead, if_neg hd, ih (done ++ [id]) (by simp [ho]) hn]
        simp [hd]

/-- Every instruction that is dead before the walk is removed, and no other. -/
theorem deadCode_eq (hn : p.order.Nodup) :
    p.deadCode = { p with order := p.order.filter fun id => !(p.inst id).isDead } := by
  rw [deadCode, sweep, foldLive_removeDead p.order [] rfl hn, List.nil_append]

/-- The program after one round. -/
def cleaned (p : Program) : Program := p.analyze.deadCode

/-- One round takes out what is dead after an analysis. -/
theorem cleaned_eq (h : p.Valid) : p.cleaned =
    { p.analyze with order := p.order.filter fun id => !(p.analyze.inst id).isDead } := by
  have hn : p.analyze.order.Nodup := h.analyze.nodup
  rw [cleaned, deadCode_eq hn, order_analyze]

/-- One round keeps a program valid. -/
theorem Valid.cleaned (h : p.Valid) : p.cleaned.Valid :=
  ((rewrites_apply .deadCode h.analyze).consistent h.analyze).toValid

theorem order_cleaned_sublist (h : p.Valid) : p.cleaned.order.Sublist p.order := by
  rw [cleaned_eq h]
  exact List.filter_sublist

/-- A round changes nothing but the use-sets of what it leaves. -/
theorem inst_cleaned (h : p.Valid) (hid : id ∈ p.order) :
    p.cleaned.inst id = { p.inst id with uses := p.consumers id } := by
  rw [cleaned_eq h]
  exact inst_analyze hid

/-- A round leaves what has a named destination or a consumer. -/
theorem mem_order_cleaned (h : p.Valid) : id ∈ p.cleaned.order ↔
    id ∈ p.order ∧ ((p.inst id).isTemp = false ∨ ∃ u ∈ p.order, .ref id ∈ (p.inst u).args) := by
  rw [cleaned_eq h, List.mem_filter]
  refine and_congr_right fun hid => ?_
  have hconsumed : p.consumers id ≠ [] ↔ ∃ u ∈ p.order, .ref id ∈ (p.inst u).args := by
    simp only [← mem_consumers_iff]
    exact ⟨List.exists_mem_of_ne_nil _, fun ⟨_, hu⟩ => List.ne_nil_of_mem hu⟩
  rw [← hconsumed, inst_analyze hid]
  simp [Inst.isDead, Inst.isTemp]

/-! ## What is needed stays -/

/-- What is needed is in the program. -/
theorem Needed.mem_order (hp : p.Valid) (h : p.Needed id) : id ∈ p.order := by
  induction h with
  | named hid _ => exact hid
  | operand _ hr ih => exact (hp.refs _ ih _ hr).1.left_mem

/-- What is needed stays in one round. -/
theorem Needed.mem_order_cleaned (hp : p.Valid) (h : p.Needed id) : id ∈ p.cleaned.order := by
  rw [Program.mem_order_cleaned hp]
  refine ⟨h.mem_order hp, ?_⟩
  cases h with
  | named _ ht => exact .inl ht
  | operand hu hr => exact .inr ⟨_, hu.mem_order hp, hr⟩

/-- A round changes nothing about what is needed. -/
theorem needed_cleaned (hp : p.Valid) : p.cleaned.Needed id ↔ p.Needed id := by
  have hsame : ∀ {x}, x ∈ p.order → ((p.cleaned.inst x).isTemp = (p.inst x).isTemp ∧
      (p.cleaned.inst x).args = (p.inst x).args) := fun hx => by
    rw [inst_cleaned hp hx]
    exact ⟨rfl, rfl⟩
  constructor
  · intro h
    induction h with
    | named hid ht =>
        have hx := (order_cleaned_sublist hp).subset hid
        exact .named hx ((hsame hx).1 ▸ ht)
    | operand _ hr ih => exact .operand ih ((hsame (ih.mem_order hp)).2 ▸ hr)
  · intro h
    induction h with
    | named hid ht =>
        have hx := (Needed.named hid ht).mem_order_cleaned hp
        exact .named hx ((hsame hid).1.trans ht)
    | operand hu hr ih => exact .operand ih ((hsame (hu.mem_order hp)).2 ▸ hr)

/-! ## The limit -/

/-- If a round takes out nothing, everything is needed: by induction from the right end of the
order, since a temporary that stays has a consumer, which stands on its right. -/
theorem needed_of_fixed (hp : p.Valid) (hfixed : p.cleaned.order = p.order) :
    ∀ id ∈ p.order, p.Needed id := by
  have key : ∀ right left : List InstId, p.order = left ++ right → ∀ id ∈ right, p.Needed id := by
    intro right
    induction right with
    | nil => simp
    | cons id right ih =>
        intro left ho
        have hright := ih (left ++ [id]) (by simp [ho])
        have hid : id ∈ p.cleaned.order := by simp [hfixed, ho]
        refine List.forall_mem_cons.mpr ⟨?_, hright⟩
        obtain ⟨hlive, ht | ⟨u, hu, hr⟩⟩ := (mem_order_cleaned hp).mp hid
        · exact .named hlive ht
        · have hpre := (hp.refs u hu id hr).1
          have hnot : u ∉ left := fun hl =>
            hpre.asymm hp.nodup ((precedes_iff_mem_left hp.nodup ho).mpr hl)
          have hne := hpre.ne hp.nodup
          have hu' : u ∈ right := by
            rw [ho] at hu
            grind
          exact .operand (hright u hu') hr
  exact key p.order [] rfl

/-- A round that takes out nothing is the last one to change anything. -/
theorem cleaned_cleaned (hp : p.Valid) (hfixed : p.cleaned.order = p.order) :
    p.cleaned.cleaned = p.cleaned := by
  have hanalyze : p.cleaned = p.analyze := by
    rw [cleaned_eq hp] at hfixed ⊢
    ext1
    · exact hfixed.trans (order_analyze p).symm
    · rfl
    · rfl
  have hagain : p.cleaned.cleaned = p.cleaned.analyze.deadCode := rfl
  rw [hagain, hanalyze, hp.refsLive.analyze_analyze]
  exact hanalyze

/-- A program without instructions stays as it is. -/
theorem cleaned_of_order_nil (h : p.order = []) : p.cleaned = p := by
  simp [cleaned, deadCode, analyze, sweep, foldLive, h]

/-- As many rounds as there are instructions reach the limit. -/
theorem cleaned_iterate_fixed (hp : p.Valid) {k : Nat} (hk : p.order.length ≤ k) :
    (cleaned^[k] p).cleaned = cleaned^[k] p := by
  induction k generalizing p with
  | zero => exact cleaned_of_order_nil (List.eq_nil_of_length_eq_zero (Nat.le_zero.mp hk))
  | succ k ih =>
      rw [Function.iterate_succ_apply]
      by_cases hfixed : p.cleaned.order = p.order
      · have hstays := Function.iterate_fixed (cleaned_cleaned hp hfixed) k
        rw [hstays]
        exact cleaned_cleaned hp hfixed
      · have hle := (order_cleaned_sublist hp).length_le
        have hne : p.cleaned.order.length ≠ p.order.length := fun h =>
          hfixed ((order_cleaned_sublist hp).eq_of_length h)
        exact ih hp.cleaned (by omega)

/-! ## Several rounds -/

/-- What any number of rounds keeps of a program. -/
structure SlicedTo (p q : Program) : Prop where
  valid : q.Valid
  order : q.order.Sublist p.order
  inst : ∀ id ∈ q.order, ∃ uses, q.inst id = { p.inst id with uses }
  needed : ∀ id, q.Needed id ↔ p.Needed id

/-- What any number of rounds keeps. -/
theorem slicedTo_iterate (hp : p.Valid) (k : Nat) : p.SlicedTo (cleaned^[k] p) := by
  induction k with
  | zero => exact ⟨hp, .refl _, fun id _ => ⟨_, rfl⟩, fun _ => Iff.rfl⟩
  | succ k ih =>
      rw [Function.iterate_succ_apply']
      have hsub := order_cleaned_sublist ih.valid
      refine ⟨ih.valid.cleaned, hsub.trans ih.order, fun id hid => ?_,
        fun id => (needed_cleaned ih.valid).trans (ih.needed id)⟩
      obtain ⟨uses, huses⟩ := ih.inst id (hsub.subset hid)
      exact ⟨_, by rw [inst_cleaned ih.valid (hsub.subset hid), huses]⟩

end Program

/-! ## The running code -/

/-- Rounds run on every valid program. -/
theorem computes_clean {p : Program} (hp : p.Valid) (k : Nat) :
    Computes (clean k) p () (Program.cleaned^[k] p) := by
  induction k generalizing p with
  | zero => exact computes_pure ()
  | succ k ih =>
      obtain ⟨hanalyze, hclosed⟩ := computes_analyze hp.closed
      rw [Function.iterate_succ_apply]
      exact hanalyze.bind ((computes_apply .deadCode hclosed).1.bind (ih hp.cleaned))

namespace Keeps

variable {γ : Type} {seen : Workspace → γ}

/-- Rounds of analysis and removal keep what stands aside from the program. -/
theorem clean (hs : Aside seen) (k : Nat) : Keeps seen (Straightline.clean k) := by
  induction k with
  | zero => exact .pure ()
  | succ k ih => exact .bind (.analyze hs.toAsideSlots) fun _ => .bind (.deadCode hs) fun _ => ih

end Keeps

/-- Analysing a program that was read and removing its dead code never faults, however often it is
repeated, never takes out an instruction that is needed, and changes neither the order nor the
operands of what it leaves. After as many rounds as there were instructions exactly the needed ones
are left, and more rounds change nothing. -/
theorem slice_of_clean {source : Source.Bytes} {w₀ w : Workspace}
    (hload : Source.load source w₀ = .ok (.ok ()) w) (k : Nat) :
    ∃ w', clean k w = .ok () w' ∧
      w'.store.program.order.Sublist w.store.program.order ∧
      (∀ id ∈ w'.store.program.order, ∃ uses,
        w'.store.program.inst id = { w.store.program.inst id with uses }) ∧
      (∀ id, w.store.program.Needed id → id ∈ w'.store.program.order) ∧
      (w.store.program.order.length ≤ k →
        (∀ id, id ∈ w'.store.program.order ↔ w.store.program.Needed id) ∧
        ∀ j, ∃ w'', clean j w' = .ok () w'' ∧ w''.store = w'.store) := by
  obtain ⟨hholds, hvalid, -, -⟩ := (Source.loaded_of_load hload).fresh
  obtain ⟨w', hrun, hholds'⟩ := computes_clean hvalid k w hholds
  have hsliced := Program.slicedTo_iterate hvalid k
  rw [← hholds'.program_eq] at hsliced
  have hstays : ∀ id, w.store.program.Needed id → id ∈ w'.store.program.order := fun id hid =>
    ((hsliced.needed id).mpr hid).mem_order hsliced.valid
  refine ⟨w', hrun, hsliced.order, hsliced.inst, hstays, fun hk => ?_⟩
  have hfixed : w'.store.program.cleaned = w'.store.program := by
    rw [hholds'.program_eq]
    exact Program.cleaned_iterate_fixed hvalid hk
  refine ⟨fun id => ⟨fun hid => ?_, hstays id⟩, fun j => ?_⟩
  · rw [← hsliced.needed id]
    exact Program.needed_of_fixed hsliced.valid (by rw [hfixed]) id hid
  · rw [← hholds'.program_eq] at hholds'
    obtain ⟨w'', hagain, hholds''⟩ := computes_clean hsliced.valid j w' hholds'
    rw [Function.iterate_fixed hfixed] at hholds''
    exact ⟨w'', hagain, hholds'.eq_of_temps_eq hholds'' ((Keeps.clean aside_temps j).of_ok hagain)⟩

/-- A chain of three dead temporaries, one of them shared with a result that stays. -/
theorem slice_of_cleaned_chain :
    let source := "T_0 = add_f(a, b)\nT_1 = mul_f(T_0, c)\nT_2 = move(T_1)\n" ++
      "T_3 = add_f(T_0, d)\nz = sub_f(T_3, a)\nT_4 = foo(T_2, T_3)\n"
    let slice := "T_0 = add_f(a, b)\nT_3 = add_f(T_0, d)\nz = sub_f(T_3, a)\n"
    ∃ w w', Source.load source.toUTF8.toList {} = .ok (.ok ()) w ∧ clean 6 w = .ok () w' ∧
      w'.store.program.listing = slice ∧
      (∀ id, id ∈ w'.store.program.order ↔ w.store.program.Needed id) ∧
      ∀ j, ∃ w'', clean j w' = .ok () w'' ∧ w''.store = w'.store := by
  intro source slice
  have hruns : ∃ w ∈ after? (Source.load source.toUTF8.toList) {},
      w.store.program.order.length ≤ 6 ∧
      ∃ w' ∈ left? (clean 6) w, w'.store.program.listing = slice := by
    decide +kernel
  obtain ⟨w, hread, hlength, w', hdone, htext⟩ := hruns
  obtain ⟨_, hload⟩ := exists_of_after? hread
  obtain ⟨_, hclean⟩ := exists_of_left? hdone
  obtain ⟨w'', hrun, -, -, -, hlimit⟩ := slice_of_clean hload 6
  rw [hclean, EStateM.Result.ok.injEq] at hrun
  obtain ⟨-, rfl⟩ := hrun
  obtain ⟨hneeded, hagain⟩ := hlimit hlength
  exact ⟨w, w', hload, hclean, htext, hneeded, hagain⟩

end Straightline
