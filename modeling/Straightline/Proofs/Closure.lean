import Straightline.Proofs.Rereading

/-!
# The language of compiled programs

The literals of a compiled program are integers below 2³¹, each on an opcode that takes an integer
in place. The passes never move such a literal to another opcode, since operands are taken over from
moves and products only (`Program.Rewrite.encoded`). A compiled program is therefore left alone by
lowering, so that its text can be read and compiled any number of times (`compile_output_closed`).
-/

set_option autoImplicit false

namespace Straightline

open Source

namespace Program

variable {L : Literal → Prop} {p q : Program}

/-- What passes its operands on takes no integer in place. -/
theorem isImmediate_of_passedOn {op : String} (h : op ∈ passedOn) :
    Opcode.isImmediate op = false := by
  have hall : ∀ op ∈ passedOn, Opcode.isImmediate op = false := by decide
  exact hall op h

/-- No step of a pass takes a literal from an opcode that takes it in place. -/
theorem Rewrite.encoded (hr : Rewrite L p q) (hp : p.Consistent) (h : p.Encoded) : q.Encoded := by
  intro x hx l hl
  cases hr.derived hp hx hl with
  | kept hread =>
      obtain ⟨y, hy, hyx, hread⟩ := hread
      obtain ⟨hint, himm⟩ := h y hy l hread
      refine ⟨hint, ?_⟩
      rcases hyx with rfl | ⟨-, hpassed⟩
      · cases hr.reshaped hp hx with
        | same hop _ => exact hop ▸ himm
        | changed hold _ _ => exact absurd (himm.symm.trans hold) (by simp)
        | moved hold _ _ => exact absurd (himm.symm.trans hold) (by simp)
      · exact absurd (himm.symm.trans (isImmediate_of_passedOn hpassed)) (by simp)
  | inverted hread =>
      obtain ⟨y, hy, -, hread⟩ := hread
      exact absurd (h y hy _ hread).1 (by simp)

/-- Passes leave every literal on an opcode that takes it in place. -/
theorem Rewrites.encoded (hr : Rewrites L p q) (hp : p.Consistent) (h : p.Encoded) : q.Encoded :=
  hr.preserves Program.Encoded (fun hstep hc he => hstep.encoded hc he) hp h

/-- An analysis leaves every literal where it is. -/
theorem Encoded.analyze (h : p.Encoded) : p.analyze.Encoded := by
  intro x hx
  rw [order_analyze] at hx
  rw [inst_analyze hx]
  exact h x hx

/-- The literals of a compiled program are integers on opcodes that take them in place. -/
theorem Compiled.encoded {pipeline : Pipeline} (h : Compiled pipeline p q) : q.Encoded := by
  obtain ⟨-, -, hvalid, hencoded, rfl⟩ := h
  exact (rewrites_optimize pipeline hvalid.analyze).encoded hvalid.analyze hencoded.analyze

/-- Whether literals are encoded shows in the text. -/
theorem Rereads.encoded (h : Rereads q q.order p) (hq : q.Encoded) : p.Encoded := by
  intro x hx l hl
  obtain ⟨id, hid, hsame⟩ := h.exists_sameLine hx
  rw [hsame.op]
  exact hq id hid l (hsame.mem_literal hl)

end Program

/-! ## Compiling encoded programs -/

/-- A compilation of a program whose literals are encoded succeeds. -/
theorem computes_compile_of_encoded (pipeline : Pipeline) {p : Program} (hp : p.Valid)
    (h : p.Encoded) :
    ∃ q, Computes pipeline.compile p (.ok ()) q ∧ q.Consistent ∧ q.FloatFree := by
  have hfirst := Program.rewrites_optimize pipeline hp.analyze
  have hc := hfirst.consistent hp.analyze
  have hencoded := hfirst.encoded hp.analyze h.analyze
  have hsecond := Program.rewrites_optimize pipeline hc.toValid.analyze
  refine ⟨_, ?_, hsecond.consistent hc.toValid.analyze,
    hsecond.floatFree hc.toValid.analyze hencoded.floatFree.analyze⟩
  have hlower : Computes Pipeline.lower (p.analyze.optimize pipeline) (.ok ())
      (p.analyze.optimize pipeline) :=
    (computes_lower_of_encoded hc.toValid.listed hencoded).bind
      ((computes_record _ "lower" 1 "Immediate Lowering").bind (computes_pure _))
  unfold Pipeline.compile
  refine (computes_analyze hp.closed).1.bind ((computes_optimize pipeline hp.analyze).bind ?_)
  refine hlower.bind ((computes_analyze hc.closed).1.bind ?_)
  exact (computes_optimize pipeline hc.toValid.analyze).bind (computes_pure _)

/-- A text whose literals are encoded is compiled. -/
theorem compileText_of_encoded {source : Bytes} {w w₁ : Workspace}
    (hload : load source w = .ok (.ok ()) w₁) (h : w₁.store.program.Encoded) (rounds slots : Int)
    (withStatistics : Bool) :
    ∃ text w', compileText rounds slots withStatistics source w = .ok (.ok text) w' := by
  have hfresh := (loaded_of_load hload).fresh
  have hreset : Computes (Pipeline.reset withStatistics) w₁.store.program () w₁.store.program :=
    computes_modify _ fun _ => rfl
  obtain ⟨q, hcompile, hc, hfree⟩ :=
    computes_compile_of_encoded (Pipeline.standard rounds slots) hfresh.valid h
  have hemit := computes_emit hc.closed
  rw [Program.emit_of_floatFree hfree] at hemit
  have hrun : ∃ r w', compileText rounds slots withStatistics source w = .ok r w' ∧
      r = .ok q.listing := by
    unfold compileText
    rw [bind_of_ok hload]
    exact Computes.run (hreset.bind (hcompile.bind (hemit.bind (computes_pure _)))) hfresh.holds rfl
  obtain ⟨_, w', hrun, rfl⟩ := hrun
  exact ⟨q.listing, w', hrun⟩

/-! ## Compiled texts -/

/-- A compilation that does not fail has written its text. -/
theorem output_of_deliver {o : CompileOptions} {text : String} {w : Workspace}
    (h : (deliver o text w).failure = none) : (deliver o text w).output = text := by
  unfold deliver at h ⊢
  dsimp only at h ⊢
  split at h
  · exact absurd h (by simp)
  · cases hout : o.output.refusal with
    | none => rfl
    | some m =>
        rw [hout] at h
        dsimp only at h ⊢
        by_cases htext : text = ""
        · rw [if_pos htext, htext]
        · rw [if_neg htext] at h
          exact absurd h (by simp)

/-- A compilation that does not fail has compiled the text that it writes. -/
theorem compileText_of_compile {o : CompileOptions} {source : Bytes}
    (h : (compile o source).failure = none) :
    ∃ w, compileText o.rounds o.slots o.statistics.isSome source {} =
      .ok (.ok (compile o source).output) w := by
  unfold compile at h ⊢
  split at h
  · exact absurd h (by simp)
  · exact absurd h (by simp)
  · rename_i text w hrun
    refine ⟨w, ?_⟩
    rw [hrun, output_of_deliver h]

/-- If a compilation succeeds and the lines of its output are not too long, then the output can be
read. Its literals are natural numbers on opcodes that take an integer in place, and written like
any other program it gives the same text. Compiling it again succeeds with all options, as long as
the sinks take what they get. -/
theorem compile_output_closed {o : CompileOptions} {source : Bytes}
    (h : (compile o source).failure = none)
    (hshort : ∀ line ∈ lines (ofText (compile o source).output), line.length < lineLimit) :
    (∃ w w', load (ofText (compile o source).output) {} = .ok (.ok ()) w ∧
      listing w = .ok (compile o source).output w' ∧
      ∀ id ∈ w.store.program.order, ∀ l, .literal l ∈ (w.store.program.inst id).args →
        (∃ n : Nat, l = .ofInt n ∧ l.text = Nat.repr n) ∧
          Opcode.isImmediate (w.store.program.inst id).op = true) ∧
    ∀ o' : CompileOptions, o'.output.refusal = none →
      (∀ s, o'.statistics = some s → s.refusal = none) →
      (compile o' (ofText (compile o source).output)).failure = none := by
  obtain ⟨w₀, hrun⟩ := compileText_of_compile h
  obtain ⟨r, w₁, hrun', -, hdone⟩ :=
    compileText_eq o.rounds o.slots o.statistics.isSome source {}
  rw [hrun, EStateM.Result.ok.injEq] at hrun'
  obtain ⟨w₂, q, hload, hcompiled, hfree, htext⟩ := hdone _ hrun'.1.symm
  have hwritable := hcompiled.writable (loaded_of_load hload).fresh.writable
  rw [htext] at hshort ⊢
  obtain ⟨w, hreload, hsame, hlisting, -⟩ :=
    hwritable.load_listing hcompiled.consistent.toValid hfree hshort {}
  have hencoded := hsame.encoded hcompiled.encoded
  have hfresh := (loaded_of_load hreload).fresh
  constructor
  · obtain ⟨w', hwrite, -⟩ := computes_listing hfresh.valid.closed w hfresh.holds
    rw [hlisting] at hwrite
    refine ⟨w, w', hreload, hwrite, fun id hid l hl => ?_⟩
    obtain ⟨hint, himm⟩ := hencoded id hid l hl
    refine ⟨?_, himm⟩
    cases (hfresh.writable id hid).operands _ hl with
    | @int n hn => exact ⟨n, rfl, congrArg Int.repr (toInt_ofInt hn)⟩
    | float bits => exact absurd hint (by simp [Literal.ofFloatBits])
  · intro o' hout hstat
    obtain ⟨text, w', hagain⟩ :=
      compileText_of_encoded hreload hencoded o'.rounds o'.slots o'.statistics.isSome
    unfold compile
    rw [hagain]
    exact (deliver_of_accepts hout hstat text w').1

/-- Floats that are lifted and one that is built, an integer that stays in place, and one that is
moved. -/
theorem compile_output_of_literals_closed :
    let source := "T_a = mul_f(x, 2.5)\nT_b = div_f(T_a, 3.0)\nz = add_f(T_b, 0.1)\n" ++
      "u = gt_i(T_b, 7)\nv = move(16384)\n"
    let output := "T_f_2_5 = lu_imm(131328)\nT_a = mul_f(x, T_f_2_5)\n" ++
      "T_b = mul_f(T_a, C_f_0_33333334)\nz = add_f(T_b, C_f_0_1)\nu = gt_i_imm(T_b, 7)\n" ++
      "v = lu_imm(2)\n"
    (compile { rounds := 2, slots := 6 } source.toUTF8.toList).failure = none ∧
      (compile { rounds := 2, slots := 6 } source.toUTF8.toList).output = output ∧
      (∃ w w', load (ofText output) {} = .ok (.ok ()) w ∧ listing w = .ok output w' ∧
        ∀ id ∈ w.store.program.order, ∀ l, .literal l ∈ (w.store.program.inst id).args →
          (∃ n : Nat, l = .ofInt n ∧ l.text = Nat.repr n) ∧
            Opcode.isImmediate (w.store.program.inst id).op = true) ∧
      ∀ rounds slots : Int, (compile { rounds, slots } (ofText output)).failure = none := by
  intro source output
  have hfailure : (compile { rounds := 2, slots := 6 } source.toUTF8.toList).failure = none := by
    decide +kernel
  have houtput : (compile { rounds := 2, slots := 6 } source.toUTF8.toList).output = output := by
    decide +kernel
  have hshort : ∀ line ∈ lines (ofText output), line.length < lineLimit := by decide +kernel
  obtain ⟨hread, hagain⟩ := compile_output_closed hfailure (houtput ▸ hshort)
  rw [houtput] at hread hagain
  exact ⟨hfailure, houtput, hread, fun rounds slots => hagain _ rfl (by simp)⟩

end Straightline
