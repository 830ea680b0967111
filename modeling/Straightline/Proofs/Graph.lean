import Mathlib.Data.List.Basic
import Mathlib.Data.List.Perm.Basic
import Straightline.Pipeline
import Straightline.Proofs.Lowered
import Straightline.Proofs.Reading
import Straightline.Proofs.Rewrites

/-!
# The graph invariant

Passes may be run in any order on a program that was read and analysed, and lowering may come in
between if an analysis follows it. Whatever the order, no step faults, and two things hold of the
store that is reached: references lead to earlier live temporaries (`Store.RefsSound`), and the live
entries of a use-set are what an analysis would record (`Store.UsesAgree`).

The invariant behind this is that the store holds a consistent program. One step keeps it
(`Step.run_eq`), hence every sequence of steps does (`runSteps_eq`).
-/

set_option autoImplicit false

namespace Straightline

/-- Something that can be done to a program: a pass, or lowering with an analysis after it. -/
inductive Step where
  | pass (p : Pass)
  | lowering

/-- Lowering may find the program unsupported; nothing more is done then. -/
def Step.run : Step → Action (Except Unsupported Unit)
  | pass p => do
    p.apply
    pure (.ok ())
  | lowering => do
    match ← lower with
    | .error e => pure (.error e)
    | .ok () =>
      analyze
      pure (.ok ())

/-- Steps one after the other. -/
def runSteps : List Step → Action (Except Unsupported Unit)
  | [] => pure (.ok ())
  | s :: rest => do
    match ← s.run with
    | .error e => pure (.error e)
    | .ok () => runSteps rest

namespace Store

/-- Whether an identity is that of an instruction in the program order. -/
def isLive (s : Store) (id : InstId) : Bool := (s.slot? id).any (·.live)

/-- The references of live instructions lead to live temporaries that stand earlier. -/
def RefsSound (s : Store) : Prop :=
  ∀ id slot, s.slot? id = some slot → slot.live = true → ∀ r, .ref r ∈ slot.inst.args →
    ∃ target, s.slot? r = some target ∧ target.live = true ∧ target.inst.isTemp = true ∧
      [r, id].Sublist s.order

/-- The live entries of the use-sets are those of the store `fresh`, in some order. All entries are
identities of instructions, so the others are those of instructions taken out. -/
def UsesAgree (s fresh : Store) : Prop :=
  ∀ id slot, s.slot? id = some slot → slot.live = true →
    (∀ u ∈ slot.inst.uses, (s.slot? u).isSome = true) ∧
    ∃ slot', fresh.slot? id = some slot' ∧ (slot.inst.uses.filter s.isLive).Perm slot'.inst.uses

namespace Holds

variable {s : Store} {p : Program} (h : s.Holds p)

include h

/-- What the store says to be live is in the order. -/
theorem isLive_eq (id : InstId) : s.isLive id = decide (id ∈ p.order) := by
  unfold isLive
  cases hs : s.slot? id with
  | some slot =>
      rw [Option.any_some, Bool.eq_iff_iff, decide_eq_true_iff]
      exact h.live id slot hs
  | none =>
      have hn : id ∉ p.order := by
        intro hm
        obtain ⟨t, ht, -, -⟩ := h.slot_of_mem hm
        rw [hs] at ht
        exact absurd ht (by simp)
      simp [hn]

theorem order_eq : s.order = p.order := congrArg Program.order h.program_eq

/-- A valid program refers to live temporaries that stand earlier. -/
theorem refsSound (hp : p.Valid) : s.RefsSound := by
  intro id slot hs hlive r hr
  have hid : id ∈ p.order := (h.live id slot hs).mp hlive
  rw [h.inst_of_slot hs] at hr
  obtain ⟨hpre, ht⟩ := hp.refs id hid r hr
  obtain ⟨target, htarget, hi, -⟩ := h.slot_of_mem hpre.left_mem
  refine ⟨target, htarget, (h.live r target htarget).mpr hpre.left_mem, hi ▸ ht, ?_⟩
  rw [h.order_eq]
  exact hpre

/-- A consistent program has the use-sets of a fresh analysis, apart from what was taken out. -/
theorem usesAgree {fresh : Store} (hf : fresh.Holds p.analyze) (hp : p.Consistent) :
    s.UsesAgree fresh := by
  intro id slot hs hlive
  have hid : id ∈ p.order := (h.live id slot hs).mp hlive
  have hinst := h.inst_of_slot hs
  constructor
  · intro u hu
    rw [hinst] at hu
    obtain ⟨t, ht, -, -⟩ := h.slot_of_known (hp.uses id hid u hu)
    simp [ht]
  · obtain ⟨slot', hs', hi, -⟩ := hf.slot_of_mem (by rw [Program.order_analyze]; exact hid)
    refine ⟨slot', hs', ?_⟩
    rw [hi, Program.inst_analyze hid, hinst]
    have hfilter : (p.inst id).uses.filter s.isLive = (p.inst id).uses.filter (· ∈ p.order) := by
      apply List.filter_congr
      intro u _
      exact h.isLive_eq u
    rw [hfilter]
    exact hp.perm_consumers hid

end Holds

end Store

/-- The workspace holds a consistent program. -/
def Workspace.Consistent (w : Workspace) : Prop := ∃ p, w.store.Holds p ∧ p.Consistent

/-- An analysis of a valid program succeeds, and the program is consistent after it. -/
theorem analyze_of_valid {w : Workspace} {p : Program} (h : w.store.Holds p) (hp : p.Valid) :
    ∃ w', analyze w = .ok () w' ∧ w'.store.Holds p.analyze ∧ w'.Consistent := by
  obtain ⟨w', hrun, hholds⟩ := (computes_analyze hp.closed).1 w h
  exact ⟨w', hrun, hholds, _, hholds, hp.analyze⟩

/-- One step does not fault, and keeps the program consistent if it is carried out. -/
theorem Step.run_eq (step : Step) {w : Workspace} (h : w.Consistent) :
    ∃ r w', step.run w = .ok r w' ∧ (r = .ok () → w'.Consistent) := by
  obtain ⟨p, hholds, hp⟩ := h
  cases step with
  | pass pass =>
      obtain ⟨w', hrun, hq⟩ := (computes_apply pass hp.closed).1 w hholds
      refine ⟨.ok (), w', ?_, fun _ => ⟨_, hq, (Program.rewrites_apply pass hp).consistent hp⟩⟩
      simp only [Step.run, bind, EStateM.bind, hrun]
      rfl
  | lowering =>
      rcases computes_lower hp.toValid with ⟨e, q, hl⟩ | ⟨_, q, hl, built, hsteps, -⟩
      · obtain ⟨w', hrun, -⟩ := hl w hholds
        refine ⟨.error e, w', ?_, by simp⟩
        simp only [Step.run, bind, EStateM.bind, hrun]
        rfl
      · obtain ⟨w', hrun, hq⟩ := hl w hholds
        have hvalid := (hsteps.keeps hp.toValid (.start hp.toValid)).valid
        obtain ⟨w'', ha, -, hw''⟩ := analyze_of_valid hq hvalid
        refine ⟨.ok (), w'', ?_, fun _ => hw''⟩
        simp only [Step.run, bind, EStateM.bind, hrun, ha]
        rfl

/-- Steps on a consistent program end without a fault, and it stays consistent unless it is
unsupported. -/
theorem runSteps_eq (steps : List Step) {w : Workspace} (h : w.Consistent) :
    ∃ r w', runSteps steps w = .ok r w' ∧ (r = .ok () → w'.Consistent) := by
  induction steps generalizing w with
  | nil => exact ⟨_, w, rfl, fun _ => h⟩
  | cons step rest ih =>
      obtain ⟨r, w₁, hrun, hw₁⟩ := step.run_eq h
      unfold runSteps
      simp only [bind, EStateM.bind, hrun]
      cases r with
      | error e => exact ⟨_, w₁, rfl, by simp⟩
      | ok u => exact ih (hw₁ rfl)

/-- Whatever is done to a program that was read and analysed, in whatever order: nothing faults,
references lead to earlier live temporaries, and the live entries of the use-sets are what another
analysis would record. -/
theorem graph_sound_of_load {source : Source.Bytes} {w₀ w₁ : Workspace}
    (hload : Source.load source w₀ = .ok (.ok ()) w₁) (steps : List Step) :
    ∃ w₂ r w, analyze w₁ = .ok () w₂ ∧ runSteps steps w₂ = .ok r w ∧
      (r = .ok () → w.store.RefsSound ∧
        ∃ w', analyze w = .ok () w' ∧ w.store.UsesAgree w'.store) := by
  obtain ⟨r₁, w₁', hl, hloaded, -⟩ := Source.load_eq source w₀
  rw [hload, EStateM.Result.ok.injEq] at hl
  obtain ⟨rfl, rfl⟩ := hl
  have hfresh := (hloaded rfl).fresh
  obtain ⟨w₂, ha, -, hw₂⟩ := analyze_of_valid hfresh.holds hfresh.valid
  obtain ⟨r, w, hrun, hw⟩ := runSteps_eq steps hw₂
  refine ⟨w₂, r, w, ha, hrun, fun hr => ?_⟩
  obtain ⟨p, hp, hc⟩ := hw hr
  obtain ⟨w', ha', hw', -⟩ := analyze_of_valid hp hc.toValid
  exact ⟨hp.refsSound hc.toValid, w', ha', hp.usesAgree hw' hc⟩

/-- Two equal products, one of them with a single consumer, and a float to be lowered. -/
theorem graph_sound_of_products :
    let source := "T_a = mul_f(x, y)\nT_b = mul_f(x, y)\nz = add_f(T_a, 2.5)\nu = gt_i(T_b, 3)\n"
    let steps := [Step.pass .fusion, .pass .duplicates, .lowering, .pass .moves, .pass .deadCode]
    ∃ w₁ w₂ w w', Source.load source.toUTF8.toList {} = .ok (.ok ()) w₁ ∧
      analyze w₁ = .ok () w₂ ∧ runSteps steps w₂ = .ok (.ok ()) w ∧
      w.store.RefsSound ∧ analyze w = .ok () w' ∧ w.store.UsesAgree w'.store := by
  intro source steps
  have hread : succeeds (Source.load source.toUTF8.toList) {} = true := by decide +kernel
  obtain ⟨_, w₁, hload⟩ := exists_of_succeeds hread
  obtain ⟨w₂, r, w, ha, hrun, hsound⟩ := graph_sound_of_load hload steps
  have hdone : succeeds (do
      let _ ← Source.load source.toUTF8.toList
      analyze
      runSteps steps) {} = true := by decide +kernel
  obtain ⟨u, w', hall⟩ := exists_of_succeeds hdone
  rw [bind_of_ok hload, bind_of_ok ha, hrun, EStateM.Result.ok.injEq] at hall
  obtain ⟨rfl, rfl⟩ := hall
  obtain ⟨hrefs, w', ha', huses⟩ := hsound rfl
  exact ⟨w₁, w₂, w, w', hload, ha, hrun, hrefs, ha', huses⟩

end Straightline
