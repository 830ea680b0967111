import Straightline.Proofs.Lifting
import Straightline.Proofs.Runs
import Straightline.Proofs.Writable

/-!
# Constants that the program writes

The constant of a lifted literal is an ordinary name, and a program may write it. Lifting looks at
the written names when it counts slots, but not when it chooses constants, so an instruction may
come to read what the program has written there (`lift_reads_overwritten_constant`).

If no constant is written before an instruction that has its literal as an operand
(`Program.ConstantsKept`), then every instruction still computes what it did, in the state that it
ran in, and all runs stay as they were (`run_of_lift`). Writes that come later do no harm.
-/

set_option autoImplicit false

namespace Straightline

namespace Program

/-- The constants of the chosen literals hold what they held at the beginning wherever they are put
in place of their literals. -/
def ConstantsKept (p : Program) (chosen : List Literal) : Prop :=
  ∀ x ∈ p.order, ∀ l ∈ chosen, .literal l ∈ (p.inst x).args →
    ∀ y ∈ p.order, p.Precedes y x → ¬ p.Defines y l.constantName

instance (p : Program) (chosen : List Literal) : Decidable (p.ConstantsKept chosen) :=
  inferInstanceAs (Decidable (∀ x ∈ p.order, ∀ l ∈ chosen, .literal l ∈ (p.inst x).args →
    ∀ y ∈ p.order, p.Precedes y x → ¬ p.Defines y l.constantName))

end Program

namespace Interpretation

variable {V : Type*} {I : Interpretation V} {p q : Program}

/-- What was not written before an instruction holds there what it held at the beginning. -/
theorem names_before_of_not_defines (hn : p.order.Nodup) {x : InstId} (hx : x ∈ p.order)
    {n : String} (h : ∀ y ∈ p.order, p.Precedes y x → ¬ p.Defines y n) (s : State V) :
    (I.before p s x).names n = s.names n := by
  obtain ⟨left, right, ho⟩ := List.append_of_mem hx
  rw [before_of_split hn ho]
  refine names_foldl_of_not_defines (fun y hy ht hd => ?_) s
  have hpre := (Program.precedes_iff_mem_left hn ho).mpr hy
  exact h y hpre.left_mem hpre ⟨hpre.left_mem, ht, hd⟩

theorem step_congr {t : State V} {x : InstId} (hdst : (q.inst x).dst = (p.inst x).dst)
    (hresult : I.result t (q.inst x) = I.result t (p.inst x)) : I.step q t x = I.step p t x := by
  unfold step Inst.isTemp
  rw [hdst, hresult]

/-- Programs with the same destinations run alike if every instruction computes the same, in the
state that it runs in. -/
theorem run_eq_of_results (hn : p.order.Nodup) (ho : q.order = p.order)
    (hdst : ∀ x ∈ p.order, (q.inst x).dst = (p.inst x).dst) (s : State V)
    (hresult : ∀ x ∈ p.order,
      I.result (I.before p s x) (q.inst x) = I.result (I.before p s x) (p.inst x)) :
    I.run q s = I.run p s := by
  have key : ∀ left right : List InstId, p.order = left ++ right →
      left.foldl (I.step q) s = left.foldl (I.step p) s := by
    intro left
    induction left using List.reverseRecOn with
    | nil => exact fun _ _ => rfl
    | append_singleton left x ih =>
        intro right hsplit
        have hsplit' : p.order = left ++ x :: right := by simp [hsplit]
        have hx : x ∈ p.order := by simp [hsplit']
        have hstep := hresult x hx
        rw [before_of_split hn hsplit'] at hstep
        rw [List.foldl_append, List.foldl_append, ih _ hsplit']
        exact step_congr (hdst x hx) hstep
  rw [run, run, ho]
  exact key p.order [] (by simp)

/-- Constants that hold their literals may take their place. -/
theorem result_map_liftOperand {t : State V} {chosen : List Literal} {i : Inst}
    (h : ∀ l ∈ chosen, .literal l ∈ i.args → t.names l.constantName = I.literal l) :
    I.result t { i with args := i.args.map (liftOperand chosen) } = I.result t i := by
  unfold result
  rw [List.map_map]
  congr 1
  refine List.map_congr_left fun v hv => ?_
  cases v with
  | ref r => rfl
  | name n => rfl
  | literal l =>
      rw [Function.comp_apply, liftOperand]
      by_cases hl : chosen.contains l = true
      · rw [if_pos hl]
        exact h l (List.contains_iff_mem.mp hl) hv
      · rw [if_neg hl]

/-- Expressions as values: a name that nothing has written stands for itself, and so does the
constant of a literal for the literal. -/
def spelled : Interpretation String where
  literal := Literal.constantName
  op name args := name ++ "(" ++ ", ".intercalate args ++ ")"

end Interpretation

/-- Lifting in a program that was read changes no run that starts with the constants in place, if no
constant is written before an instruction that has its literal as an operand. -/
theorem run_of_lift {V : Type*} {source : Source.Bytes} {w₀ w : Workspace}
    (hload : Source.load source w₀ = .ok (.ok ()) w) (I : Interpretation V) (slots : Int)
    (hkept : w.store.program.ConstantsKept (w.store.program.chooseLiterals slots)) :
    ∃ w', lift slots w = .ok () w' ∧ ∀ s : State V, I.HoldsConstants s.names →
      I.run w'.store.program s = I.run w.store.program s := by
  have hfresh := (Source.loaded_of_load hload).fresh
  have hvalid := hfresh.valid
  obtain ⟨w', hrun, hholds'⟩ := computes_lift hvalid.known slots w hfresh.holds
  refine ⟨w', hrun, fun s hconstants => ?_⟩
  rw [hholds'.program_eq]
  refine Interpretation.run_eq_of_results hvalid.nodup (Program.order_lift _ _)
    (fun x hx => ?_) s (fun x hx => ?_)
  · rw [Program.inst_lift hvalid.nodup, if_pos hx]
  · rw [Program.inst_lift hvalid.nodup, if_pos hx]
    refine Interpretation.result_map_liftOperand fun l hl hread => ?_
    have hcanonical := canonical_of_writable ((hfresh.writable x hx).operands _ hread)
    rw [Interpretation.names_before_of_not_defines hvalid.nodup hx (hkept x hx l hl hread),
      hconstants l hcanonical]

/-- A constant that is written at its last use, and one that is written although its literal takes
no slot. -/
theorem run_of_lifted_constants :
    let source := "x = mul_f(a, 2.5)\nC_i_8192 = foo(8192, x)\nC_f_0_1 = move(x)\n" ++
      "y = bar(C_i_8192, 0.1)\n"
    let lifted := "x = mul_f(a, 2.5)\nC_i_8192 = foo(C_i_8192, x)\nC_f_0_1 = move(x)\n" ++
      "y = bar(C_i_8192, 0.1)\n"
    let spelled := Interpretation.spelled
    let s : State String := ⟨fun _ => "", id⟩
    ∃ w w', Source.load source.toUTF8.toList {} = .ok (.ok ()) w ∧
      w.store.program.ConstantsKept (w.store.program.chooseLiterals 6) ∧
      lift 6 w = .ok () w' ∧ w'.store.program.listing = lifted ∧ spelled.HoldsConstants s.names ∧
      (spelled.run w.store.program s).names "y" = "bar(foo(C_i_8192, mul_f(a, C_f_2_5)), C_f_0_1)" ∧
      spelled.run w'.store.program s = spelled.run w.store.program s := by
  intro source lifted spelled s
  have hruns : ∃ w ∈ after? (Source.load source.toUTF8.toList) {},
      w.store.program.ConstantsKept (w.store.program.chooseLiterals 6) ∧
      (spelled.run w.store.program s).names "y" = "bar(foo(C_i_8192, mul_f(a, C_f_2_5)), C_f_0_1)" ∧
      ∃ w' ∈ left? (lift 6) w, w'.store.program.listing = lifted := by
    decide +kernel
  obtain ⟨w, hread, hkept, hvalue, w', hdone, htext⟩ := hruns
  obtain ⟨_, hload⟩ := exists_of_after? hread
  obtain ⟨_, hlift⟩ := exists_of_left? hdone
  obtain ⟨w'', hrun, hsame⟩ := run_of_lift hload spelled 6 hkept
  rw [hlift, EStateM.Result.ok.injEq] at hrun
  obtain ⟨-, rfl⟩ := hrun
  have hconstants : spelled.HoldsConstants s.names := fun _ _ => rfl
  exact ⟨w, w', hload, hkept, hlift, htext, hconstants, hvalue, hsame s hconstants⟩

/-- A constant that is written before a use of its literal: the use reads what was written. -/
theorem lift_reads_overwritten_constant :
    let source := "C_i_8192 = foo(x)\ny = bar(8192)\n"
    let lifted := "C_i_8192 = foo(x)\ny = bar(C_i_8192)\n"
    let spelled := Interpretation.spelled
    let s : State String := ⟨fun _ => "", id⟩
    ∃ w w', Source.load source.toUTF8.toList {} = .ok (.ok ()) w ∧
      spelled.HoldsConstants s.names ∧ lift 4 w = .ok () w' ∧ w'.store.program.listing = lifted ∧
      (spelled.run w.store.program s).names "y" = "bar(C_i_8192)" ∧
      (spelled.run w'.store.program s).names "y" = "bar(foo(x))" := by
  intro source lifted spelled s
  have hruns : ∃ w ∈ after? (Source.load source.toUTF8.toList) {},
      ∃ w' ∈ left? (lift 4) w, w'.store.program.listing = lifted ∧
      (spelled.run w.store.program s).names "y" = "bar(C_i_8192)" ∧
      (spelled.run w'.store.program s).names "y" = "bar(foo(x))" := by
    decide +kernel
  obtain ⟨w, hread, w', hdone, htext, hbefore, hafter⟩ := hruns
  obtain ⟨_, hload⟩ := exists_of_after? hread
  obtain ⟨_, hlift⟩ := exists_of_left? hdone
  exact ⟨w, w', hload, fun _ _ => rfl, hlift, htext, hbefore, hafter⟩

end Straightline
