import Mathlib.Data.List.Basic
import Straightline.Proofs.Lowered
import Straightline.Proofs.Reading

/-!
# Programs that cannot be lowered

An instruction is offending if the target cannot encode its first integer on the opcode that it is
written with (`Inst.Offending`). Lowering changes the opcode while it is still looking at the
operands, and puts new instructions in front of the ones it walks over. Nevertheless it fails
exactly on the programs with an offending instruction, and what it reports is the first of them
(`lower_fails_iff_offending`).

Nothing is asked of the references: lowering follows none.
-/

set_option autoImplicit false

namespace Straightline

namespace Program

variable {p : Program} {e : Unsupported}

/-- The instruction `id` is offending, and no instruction before it is. -/
def FirstOffending (p : Program) (id : InstId) : Prop :=
  ∃ left right, p.order = left ++ id :: right ∧ (∀ x ∈ left, ¬ (p.inst x).Offending) ∧
    (p.inst id).Offending

/-- The first offending instruction is in the program. -/
theorem FirstOffending.mem {id : InstId} (h : p.FirstOffending id) : id ∈ p.order := by
  obtain ⟨left, right, horder, -⟩ := h
  simp [horder]

/-- The first thing that is unsupported about a program belongs to the first offending
instruction. -/
theorem FirstOffending.of_findSome?
    (h : p.order.findSome? (fun x => (p.inst x).offence?) = some e) :
    ∃ id l, p.FirstOffending id ∧ (p.inst id).firstInteger? = some l ∧
      e = (p.inst id).complaint l := by
  obtain ⟨left, id, right, horder, he, hleft⟩ := List.findSome?_eq_some_iff.mp h
  obtain ⟨l, hl, hcode⟩ := Inst.offence?_eq_some_iff.mp he
  obtain ⟨hbad, rfl⟩ := encodeInteger_eq_error.mp hcode
  refine ⟨id, l, ⟨left, right, horder, fun x hx => ?_, l, hl, hbad⟩, hl, rfl⟩
  exact Inst.offence?_eq_none_iff.mp (hleft x hx)

end Program

/-- Lowering gives a result, and it fails exactly when some live instruction is offending. The
failure names the opcode and the first integer of the first such instruction. -/
theorem lower_fails_iff_offending {w : Workspace} {p : Program} (hw : w.store.Holds p) :
    ∃ r w', lower w = .ok r w' ∧
      ((∃ e, r = .error e) ↔ ∃ id ∈ p.order, (p.inst id).Offending) ∧
      ∀ e, r = .error e → ∃ id l, p.FirstOffending id ∧ (p.inst id).firstInteger? = some l ∧
        e = (p.inst id).complaint l := by
  rcases settles_lower hw.listed with ⟨e, q, hq, hfind⟩ | ⟨_, q, hq, hnone, -⟩
  · obtain ⟨w', hrun, -⟩ := hq w hw
    obtain ⟨id, l, hfirst, hl, he⟩ := Program.FirstOffending.of_findSome? hfind
    refine ⟨_, w', hrun, ⟨fun _ => ?_, fun _ => ⟨e, rfl⟩⟩, fun e' he' => ?_⟩
    · have ⟨_, _, _, _, hbad⟩ := hfirst
      exact ⟨id, hfirst.mem, hbad⟩
    · obtain rfl := Except.error.inj he'
      exact ⟨id, l, hfirst, hl, he⟩
  · obtain ⟨w', hrun, -⟩ := hq w hw
    refine ⟨_, w', hrun, ⟨by simp, ?_⟩, by simp⟩
    rintro ⟨id, hid, hbad⟩
    have hfine := List.findSome?_eq_none_iff.mp hnone id hid
    exact absurd hbad (Inst.offence?_eq_none_iff.mp hfine)

/-- Floats, a comparison with two integers and the move of an integer without a low field are
passed; of the two offending instructions behind them the first is reported. -/
theorem lower_fails_at_first_offending :
    let source := "a = add_f(x, 2.5)\nb = gt_i(3, 0.1, 4)\nc = move(16384)\n" ++
      "d = foo(0.5, y, 3, 4)\ne = move(7)\n"
    ∃ w w' e, Source.load source.toUTF8.toList {} = .ok (.ok ()) w ∧
      w.store.program.FirstOffending ⟨3⟩ ∧ lower w = .ok (.error e) w' ∧
      e.message = "Unsupported program (foo): no immediate form for integer 3" := by
  intro source
  have hruns : ∃ w ∈ after? (Source.load source.toUTF8.toList) {},
      .error (.noImmediateForm "foo" (.ofInt 3)) ∈ result? lower w ∧
      ∀ id ∈ w.store.program.order, (w.store.program.inst id).op = "foo" → id = ⟨3⟩ := by
    decide +kernel
  obtain ⟨w, hread, hresult, honly⟩ := hruns
  obtain ⟨_, hload⟩ := exists_of_after? hread
  obtain ⟨w', hlower⟩ := exists_of_result? hresult
  obtain ⟨r, w'', hrun, -, hfirst⟩ :=
    lower_fails_iff_offending (Source.loaded_of_load hload).fresh.holds
  rw [hlower, EStateM.Result.ok.injEq] at hrun
  obtain ⟨rfl, rfl⟩ := hrun
  obtain ⟨id, l, hid, -, he⟩ := hfirst _ rfl
  have hop : (w.store.program.inst id).op = "foo" := by
    rw [← Inst.op_complaint _ l, ← he]
    rfl
  obtain rfl := honly id hid.mem hop
  exact ⟨w, w', _, hload, hid, hlower, by decide +kernel⟩

end Straightline
