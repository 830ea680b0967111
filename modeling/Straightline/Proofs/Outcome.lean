import Straightline.Compile
import Straightline.Proofs.Phases
import Straightline.Proofs.Reading
import Straightline.Proofs.Rendering

/-!
# How a compilation ends

A compilation never faults and never finds a float literal where the target allows none: its only
failures are a text that cannot be read and a program that the target does not support. Nothing has
been written when it fails (`compile_fails_clean`).
-/

set_option autoImplicit false

namespace Straightline

/-- The failures that a text can be blamed for. -/
def Failure.OfText (e : Failure) : Prop :=
  (∃ s, e = .unreadable (.malformed s)) ∨ e = .unreadable .lineTooLong ∨ ∃ u, e = .unsupported u

/-- A text that cannot be read is to blame. -/
theorem ofText_unreadable (e : Source.ReadError) : (Failure.unreadable e).OfText := by
  cases e with
  | malformed s => exact .inl ⟨s, rfl⟩
  | lineTooLong => exact .inr (.inl rfl)

/-- Compiling a program that was read gives a result. If it succeeds, the store holds a program that
a compilation leads to. -/
theorem compile_of_load {source : Source.Bytes} {w₀ w w₁ : Workspace}
    (hload : Source.load source w₀ = .ok (.ok ()) w) (hw : w₁.store = w.store)
    (pipeline : Pipeline) :
    w.store.Fresh w.store.program ∧ ∃ r w', pipeline.compile w₁ = .ok r w' ∧
      (r = .ok () → w'.store.Holds w'.store.program ∧ w'.store.program.FloatFree ∧
        Program.Compiled pipeline w.store.program w'.store.program) := by
  have hfresh := (Source.loaded_of_load hload).fresh
  have hholds : w₁.store.Holds w.store.program := hw ▸ hfresh.holds
  refine ⟨hfresh, ?_⟩
  rcases computes_compile pipeline hfresh.valid with
    ⟨e, q, hq⟩ | ⟨_, q, hq, built, lowered, hsteps, hvalid, hencoded, rfl, -, hfree⟩
  · obtain ⟨w', hrun, -⟩ := hq w₁ hholds
    exact ⟨_, w', hrun, by simp⟩
  · obtain ⟨w', hrun, hholds'⟩ := hq w₁ hholds
    refine ⟨_, w', hrun, fun _ => ?_⟩
    rw [hholds'.program_eq]
    exact ⟨hholds', hfree, hfresh.valid, hsteps, hvalid, hencoded, rfl⟩

/-- Compiling a text gives a result, and only the text can be at fault. If it succeeds, the result
is the text of a program without floats that a compilation leads to. -/
theorem compileText_eq (rounds slots : Int) (withStatistics : Bool) (source : Source.Bytes)
    (w : Workspace) : ∃ r w', compileText rounds slots withStatistics source w = .ok r w' ∧
      (∀ e, r = .error e → e.OfText) ∧
      ∀ text, r = .ok text → ∃ w₁ q, Source.load source w = .ok (.ok ()) w₁ ∧
        Program.Compiled (Pipeline.standard rounds slots) w₁.store.program q ∧ q.FloatFree ∧
        text = q.listing := by
  obtain ⟨r₁, w₁, hload, hloaded, -⟩ := Source.load_eq source w
  unfold compileText
  rw [bind_of_ok hload]
  cases r₁ with
  | error e =>
      refine ⟨_, w₁, rfl, ?_, by simp⟩
      intro e' he
      rw [Except.error.injEq] at he
      exact he ▸ ofText_unreadable e
  | ok u =>
      have hfresh := (hloaded rfl).fresh
      have hreset : Computes (Pipeline.reset withStatistics) w₁.store.program () w₁.store.program :=
        computes_modify _ fun _ => rfl
      rcases computes_compile (Pipeline.standard rounds slots) hfresh.valid with
        ⟨e, q, hq⟩ | ⟨_, q, hq, built, lowered, hsteps, hvalid, hencoded, he, hc, hfree⟩
      · refine Computes.run (hreset.bind (hq.bind (computes_pure _))) hfresh.holds ⟨?_, by simp⟩
        intro e' he
        rw [Except.error.injEq] at he
        exact .inr (.inr ⟨e, he.symm⟩)
      · have hemit := computes_emit hc.closed
        rw [Program.emit_of_floatFree hfree] at hemit
        refine Computes.run (hreset.bind (hq.bind (hemit.bind (computes_pure _)))) hfresh.holds
          ⟨by simp, fun text ht => ?_⟩
        rw [Except.ok.injEq] at ht
        exact ⟨w₁, q, hload, ⟨hfresh.valid, hsteps, hvalid, hencoded, he⟩, hfree, ht.symm⟩

/-- Sinks that take everything: the program is written, and nothing fails. -/
theorem deliver_of_accepts {o : CompileOptions} (hout : o.output.refusal = none)
    (hstat : ∀ s, o.statistics = some s → s.refusal = none) (text : String) (w : Workspace) :
    (deliver o text w).failure = none ∧ (deliver o text w).output = text := by
  unfold deliver
  cases hs : o.statistics with
  | none => simp [hout]
  | some sink =>
      obtain ⟨refusal⟩ := sink
      obtain rfl : refusal = none := hstat _ hs
      cases w.statistics with
      | none => simp [hout]
      | some ms => simp [hout]

/-- With sinks that take everything, a compilation succeeds and writes the program, or it fails
because of its text, and then nothing has been written. -/
theorem compile_fails_clean (o : CompileOptions) (source : Source.Bytes)
    (hout : o.output.refusal = none) (hstat : ∀ s, o.statistics = some s → s.refusal = none) :
    ((compile o source).failure = none ∧
      ∃ text w, compileText o.rounds o.slots o.statistics.isSome source {} = .ok (.ok text) w ∧
        (compile o source).output = text) ∨
    ∃ e, (compile o source).failure = some e ∧
      ((∃ s, e = .unreadable (.malformed s)) ∨ e = .unreadable .lineTooLong ∨
        ∃ u, e = .unsupported u) ∧
      (compile o source).output = "" ∧ (compile o source).statistics = "" := by
  obtain ⟨r, w, hrun, hfail, -⟩ := compileText_eq o.rounds o.slots o.statistics.isSome source {}
  unfold compile
  rw [hrun]
  cases r with
  | error e => exact .inr ⟨e, rfl, hfail e rfl, rfl, rfl⟩
  | ok text =>
      obtain ⟨hnone, htext⟩ := deliver_of_accepts hout hstat text w
      exact .inl ⟨hnone, text, w, rfl, htext⟩

/-- An integer on an opcode without an immediate form, after a float that was lowered. -/
theorem compile_unsupported_fails_clean :
    ∃ e, (compile { statistics := some {} } "z = add_f(2.5, 5)\n".toUTF8.toList).failure = some e ∧
      (compile { statistics := some {} } "z = add_f(2.5, 5)\n".toUTF8.toList).output = "" ∧
      (compile { statistics := some {} } "z = add_f(2.5, 5)\n".toUTF8.toList).statistics = "" := by
  have hfails : (compile { statistics := some {} }
      "z = add_f(2.5, 5)\n".toUTF8.toList).failure ≠ none := by decide +kernel
  rcases compile_fails_clean { statistics := some {} } "z = add_f(2.5, 5)\n".toUTF8.toList rfl
    (by simp) with ⟨hnone, -⟩ | ⟨e, he, -, hout, hstat⟩
  · exact absurd hnone hfails
  · exact ⟨e, he, hout, hstat⟩

end Straightline
