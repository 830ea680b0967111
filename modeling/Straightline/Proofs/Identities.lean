import Mathlib.Data.List.Nodup
import Straightline.Proofs.Consistency
import Straightline.Proofs.Frames
import Straightline.Proofs.Reading
import Straightline.Proofs.Rendering

/-!
# The order of the algebraic rules

The three algebraic rules are applied in sweeps over the whole program, one after the other. The
order of the sweeps matters for one shape of instruction: a division of `1.0` by a float literal
(`Inst.dividesOne`) becomes a product `mul_f(1.0, k)`, which is a move only if the rule for such
products is still to come. `algebra_order_iff` says that an order gives the program that `algebra`
gives exactly if it has that rule before the one for divisions, or no live instruction has this
shape.

On every other instruction at most one of the rules fires, and none fires on what it leaves
(`Rule.exists_settles`), so the order is immaterial there.
-/

set_option autoImplicit false

namespace Straightline

/-- Whether the instruction divides `1.0` by a float literal. -/
def Inst.dividesOne (i : Inst) : Bool :=
  match i.args with
  | [one, .literal ⟨.float, _⟩] => i.op = Opcode.divF ∧ one = .one
  | _ => false

/-- The check says that one is divided by a float literal. -/
theorem Inst.dividesOne_iff {i : Inst} : i.dividesOne = true ↔
    i.op = Opcode.divF ∧ ∃ k, i.args = [.one, .literal ⟨.float, k⟩] := by
  unfold Inst.dividesOne
  split
  · rename_i one k hargs
    simp [hargs]
  · rename_i hnot
    simp only [Bool.false_eq_true, false_iff, not_and, not_exists]
    exact fun _ k hargs => hnot _ _ hargs

/-! ## One instruction -/

namespace Rule

/-- The instruction that a rule leaves. -/
def rewrite (i : Inst) (rule : Rule) : Inst := ((rule i).map (·.1)).getD i

/-- The three algebraic rules, as they are applied. -/
def identities : List Rule := [.unitProduct, .unitProductSum, .reciprocal]

variable {i : Inst} {rule : Rule}

theorem rewrite_of_none (h : rule i = none) : rewrite i rule = i := by
  rw [rewrite, h]
  rfl

/-- A rule leaves an instruction alone unless it has the opcode that the rule is for. -/
theorem rewrite_of_op_ne {op : String} (hrule : ∀ i' e, rule i = some (i', e) → i.op = op)
    (h : i.op ≠ op) : rewrite i rule = i := by
  apply rewrite_of_none
  cases hi : rule i with
  | none => rfl
  | some ie => exact absurd (hrule ie.1 ie.2 hi) h

/-- The rule for products with one leaves other opcodes alone. -/
theorem unitProduct_of_op_ne (h : i.op ≠ Opcode.mulF) : rewrite i unitProduct = i :=
  rewrite_of_op_ne (fun _ _ hi => by obtain ⟨x, hop, -⟩ := unitProduct_eq_some hi; exact hop) h

/-- The rule for sums of such products leaves other opcodes alone. -/
theorem unitProductSum_of_op_ne (h : i.op ≠ Opcode.mulAddF) : rewrite i unitProductSum = i :=
  rewrite_of_op_ne
    (fun _ _ hi => by obtain ⟨a, b, hop, -⟩ := unitProductSum_eq_some hi; exact hop) h

/-- The rule for divisions leaves other opcodes alone. -/
theorem reciprocal_of_op_ne (h : i.op ≠ Opcode.divF) : rewrite i reciprocal = i :=
  rewrite_of_op_ne (fun _ _ hi => by obtain ⟨x, k, hop, -⟩ := reciprocal_eq_some hi; exact hop) h

/-! ## Rules one after the other -/

/-- What holds of all algebraic rules holds of these three. -/
theorem forall_identities {P : Rule → Prop} :
    (∀ r ∈ identities, P r) ↔ P unitProduct ∧ P unitProductSum ∧ P reciprocal := by
  simp [identities]

theorem unitProduct_ne_reciprocal : unitProduct ≠ reciprocal := fun h => by
  have hsome := congrArg Option.isSome (congrFun h ⟨"", Opcode.mulF, [.one, .one], []⟩)
  exact absurd hsome (by decide)

theorem identities_nodup : identities.Nodup := by
  have hfirst : unitProduct ≠ unitProductSum := fun h => by
    have hsome := congrArg Option.isSome (congrFun h ⟨"", Opcode.mulF, [.one, .one], []⟩)
    exact absurd hsome (by decide)
  have hlast : unitProductSum ≠ reciprocal := fun h => by
    have hsome := congrArg Option.isSome (congrFun h ⟨"", Opcode.divF, [.one, .one], []⟩)
    exact absurd hsome (by decide)
  simp [identities, hfirst, hlast, unitProduct_ne_reciprocal]

/-- Rules that leave an instruction alone leave it alone together. -/
theorem foldl_rewrite_of_fixed {rules : List Rule} (h : ∀ r ∈ rules, rewrite i r = i) :
    rules.foldl rewrite i = i := by
  induction rules with
  | nil => rfl
  | cons r rules ih =>
      rw [List.foldl_cons, h r (by simp)]
      exact ih fun x hx => h x (by simp [hx])

/-- Of the algebraic rules, only this one matters for an instruction: the others leave it alone, and
all of them leave alone what it becomes. -/
structure Settles (rule : Rule) (i : Inst) : Prop where
  others : ∀ r ∈ identities, r ≠ rule → rewrite i r = i
  done : ∀ r ∈ identities, rewrite (rewrite i rule) r = rewrite i rule

/-- Wherever the rule that matters stands among others, the instruction becomes the same. -/
theorem Settles.foldl_rewrite (h : rule.Settles i) {rules : List Rule}
    (hsub : ∀ r ∈ rules, r ∈ identities) (hmem : rule ∈ rules) :
    rules.foldl rewrite i = rewrite i rule := by
  induction rules with
  | nil => simp at hmem
  | cons r rules ih =>
      have hsub' : ∀ r ∈ rules, r ∈ identities := fun x hx => hsub x (by simp [hx])
      rw [List.foldl_cons]
      by_cases hr : r = rule
      · rw [hr]
        exact foldl_rewrite_of_fixed fun x hx => h.done x (hsub' x hx)
      · rw [h.others r (hsub r (by simp)) hr]
        exact ih hsub' (by simpa [Ne.symm hr] using hmem)

/-! ## Which rule matters -/

/-- No rule is for any other opcode. -/
theorem rewrite_of_ops_ne (hmul : i.op ≠ Opcode.mulF) (hsum : i.op ≠ Opcode.mulAddF)
    (hdiv : i.op ≠ Opcode.divF) : ∀ r ∈ identities, rewrite i r = i :=
  forall_identities.mpr
    ⟨unitProduct_of_op_ne hmul, unitProductSum_of_op_ne hsum, reciprocal_of_op_ne hdiv⟩

/-- A rule settles an instruction if no other applies to it, and none to what it leaves. -/
theorem Settles.of_result (hothers : ∀ r ∈ identities, r ≠ rule → rewrite i r = i)
    (hdone : ∀ i' e, rule i = some (i', e) → ∀ r ∈ identities, rewrite i' r = i') :
    rule.Settles i := by
  refine ⟨hothers, fun r hr => ?_⟩
  cases hi : rule i with
  | none =>
      have hself := rewrite_of_none hi
      rw [hself]
      by_cases hrule : r = rule
      · rw [hrule, hself]
      · exact hothers r hr hrule
  | some ie =>
      have hnew : rewrite i rule = ie.1 := by
        rw [rewrite, hi]
        rfl
      rw [hnew]
      exact hdone ie.1 ie.2 hi r hr

/-- The rule for products with one settles all products. -/
theorem settles_unitProduct (hop : i.op = Opcode.mulF) : unitProduct.Settles i := by
  refine .of_result (forall_identities.mpr ⟨fun h => absurd rfl h, fun _ => ?_, fun _ => ?_⟩)
    fun i' e hi => ?_
  · exact unitProductSum_of_op_ne (by rw [hop]; decide)
  · exact reciprocal_of_op_ne (by rw [hop]; decide)
  · obtain ⟨x, -, -, rfl⟩ := unitProduct_eq_some hi
    exact rewrite_of_ops_ne (show Opcode.move ≠ Opcode.mulF by decide)
      (show Opcode.move ≠ Opcode.mulAddF by decide) (show Opcode.move ≠ Opcode.divF by decide)

/-- The rule for sums of such products settles all sums of products. -/
theorem settles_unitProductSum (hop : i.op = Opcode.mulAddF) : unitProductSum.Settles i := by
  refine .of_result (forall_identities.mpr ⟨fun _ => ?_, fun h => absurd rfl h, fun _ => ?_⟩)
    fun i' e hi => ?_
  · exact unitProduct_of_op_ne (by rw [hop]; decide)
  · exact reciprocal_of_op_ne (by rw [hop]; decide)
  · obtain ⟨a, b, -, -, rfl⟩ := unitProductSum_eq_some hi
    exact rewrite_of_ops_ne (show Opcode.addF ≠ Opcode.mulF by decide)
      (show Opcode.addF ≠ Opcode.mulAddF by decide) (show Opcode.addF ≠ Opcode.divF by decide)

/-- The rules for products leave a division alone. -/
theorem rewrite_division (hop : i.op = Opcode.divF) :
    ∀ r ∈ identities, r ≠ reciprocal → rewrite i r = i := by
  refine forall_identities.mpr ⟨fun _ => ?_, fun _ => ?_, fun h => absurd rfl h⟩
  · exact unitProduct_of_op_ne (by rw [hop]; decide)
  · exact unitProductSum_of_op_ne (by rw [hop]; decide)

/-- The product that a division becomes has `1.0` in front only if `1.0` was divided. -/
theorem settles_reciprocal (hop : i.op = Opcode.divF) (hone : i.dividesOne = false) :
    reciprocal.Settles i := by
  refine .of_result (rewrite_division hop) fun i' e hi => ?_
  obtain ⟨x, k, -, hargs, rfl⟩ := reciprocal_eq_some hi
  have hx : x ≠ .one := by
    rintro rfl
    rw [Inst.dividesOne_iff.mpr ⟨hop, k, hargs⟩] at hone
    exact absurd hone (by simp)
  refine forall_identities.mpr ⟨rewrite_of_none ?_,
    unitProductSum_of_op_ne (show Opcode.mulF ≠ Opcode.mulAddF by decide),
    reciprocal_of_op_ne (show Opcode.mulF ≠ Opcode.divF by decide)⟩
  simp [unitProduct, hx]

/-- On every instruction but one that divides `1.0`, one of the rules settles what becomes of it. -/
theorem exists_settles (hone : i.dividesOne = false) : ∃ rule ∈ identities, rule.Settles i := by
  by_cases hmul : i.op = Opcode.mulF
  · exact ⟨unitProduct, by simp [identities], settles_unitProduct hmul⟩
  by_cases hsum : i.op = Opcode.mulAddF
  · exact ⟨unitProductSum, by simp [identities], settles_unitProductSum hsum⟩
  by_cases hdiv : i.op = Opcode.divF
  · exact ⟨reciprocal, by simp [identities], settles_reciprocal hdiv hone⟩
  have hfixed := rewrite_of_ops_ne hmul hsum hdiv
  have hself := hfixed unitProduct (by simp [identities])
  exact ⟨unitProduct, by simp [identities], fun r hr _ => hfixed r hr, by rwa [hself]⟩

/-! ## Orders of the rules -/

variable {rules : List Rule}

/-- In any order the rules do the same to an instruction that does not divide `1.0`. -/
theorem foldl_rewrite_of_perm (hrules : rules.Perm identities) (hone : i.dividesOne = false) :
    rules.foldl rewrite i = identities.foldl rewrite i := by
  obtain ⟨rule, hrule, hsettles⟩ := exists_settles hone
  rw [hsettles.foldl_rewrite (fun r hr => hrules.subset hr) (hrules.symm.subset hrule),
    hsettles.foldl_rewrite (fun r hr => hr) hrule]

/-- A division of `1.0` becomes a move only if the rule for products is still to come. -/
theorem foldl_rewrite_of_dividesOne (hrules : rules.Perm identities) (hone : i.dividesOne = true) :
    ([unitProduct, reciprocal].Sublist rules → rules.foldl rewrite i = rewrite i reciprocal) ∧
      (¬ [unitProduct, reciprocal].Sublist rules → (rules.foldl rewrite i).op = Opcode.move) := by
  have hnodup := hrules.nodup_iff.mpr identities_nodup
  obtain ⟨left, right, rfl⟩ : ∃ left right, rules = left ++ reciprocal :: right :=
    List.append_of_mem (hrules.symm.subset (by simp [identities]))
  obtain ⟨hop, k, hargs⟩ := Inst.dividesOne_iff.mp hone
  have hnew : rewrite i reciprocal = { i with
      op := Opcode.mulF
      args := [.one, .literal (.ofFloatBits (Binary32.reciprocal k))] } := by
    simp [rewrite, reciprocal, hop, hargs]
  have hleft : left.foldl rewrite i = i := by
    refine foldl_rewrite_of_fixed fun r hr =>
      rewrite_division hop r (hrules.subset (by simp [hr])) ?_
    rintro rfl
    exact List.disjoint_of_nodup_append hnodup hr (by simp)
  have hright : ∀ r ∈ right, r ∈ identities := fun r hr => hrules.subset (by simp [hr])
  have hsettles : unitProduct.Settles (rewrite i reciprocal) := settles_unitProduct (by rw [hnew])
  rw [pair_sublist_iff hnodup rfl, List.foldl_append, hleft, List.foldl_cons]
  constructor
  · intro hmem
    refine foldl_rewrite_of_fixed fun r hr => hsettles.others r (hright r hr) ?_
    rintro rfl
    exact List.disjoint_of_nodup_append hnodup hmem (by simp [hr])
  · intro hnot
    have hmem : unitProduct ∈ left ++ reciprocal :: right :=
      hrules.symm.subset (by simp [identities])
    have hmem' : unitProduct ∈ right := by
      simpa [hnot, unitProduct_ne_reciprocal] using hmem
    rw [hsettles.foldl_rewrite hright hmem', hnew]
    rfl

/-- An order of the rules does the same as the one in which they are applied exactly if it has the
rule for products before the one for divisions, unless the instruction does not divide `1.0`. -/
theorem foldl_rewrite_eq_iff (hrules : rules.Perm identities) :
    rules.foldl rewrite i = identities.foldl rewrite i ↔
      [unitProduct, reciprocal].Sublist rules ∨ i.dividesOne = false := by
  cases hone : i.dividesOne with
  | false => simpa using foldl_rewrite_of_perm hrules hone
  | true =>
      have happlied : identities.foldl rewrite i = rewrite i reciprocal :=
        (foldl_rewrite_of_dividesOne (.refl _) hone).1 (by simp [identities])
      obtain ⟨hbefore, hafter⟩ := foldl_rewrite_of_dividesOne hrules hone
      rw [happlied, or_iff_left (by simp)]
      refine ⟨fun hsame => ?_, hbefore⟩
      by_contra hnot
      obtain ⟨hop, k, hargs⟩ := Inst.dividesOne_iff.mp hone
      have hmove := hafter hnot
      rw [hsame, rewrite, reciprocal, hargs] at hmove
      simp [hop, Opcode.mulF, Opcode.move] at hmove

end Rule

/-! ## The whole program -/

namespace Program

variable {p : Program}

/-- Applies rules to the whole program, one after the other. -/
def simplify (rules : List Rule) (p : Program) : Program :=
  rules.foldl (fun q rule => q.sweep (applyRule rule)) p

theorem order_applyRule (rule : Rule) (p : Program) (id : InstId) :
    (applyRule rule p id).order = p.order := rfl

theorem size_applyRule (rule : Rule) (p : Program) (id : InstId) :
    (applyRule rule p id).size = p.size := rfl

theorem order_sweep_applyRule (rule : Rule) (p : Program) :
    (p.sweep (applyRule rule)).order = p.order := by
  rw [sweep_eq_foldl (order_applyRule rule), order_foldl_of_same (order_applyRule rule)]

theorem size_sweep_applyRule (rule : Rule) (p : Program) :
    (p.sweep (applyRule rule)).size = p.size :=
  size_sweep (size_applyRule rule) p

theorem order_simplify (rules : List Rule) (p : Program) : (p.simplify rules).order = p.order := by
  induction rules generalizing p with
  | nil => rfl
  | cons rule rules ih => exact (ih _).trans (order_sweep_applyRule rule p)

theorem size_simplify (rules : List Rule) (p : Program) : (p.simplify rules).size = p.size := by
  induction rules generalizing p with
  | nil => rfl
  | cons rule rules ih => exact (ih _).trans (size_sweep_applyRule rule p)

/-- Sweeps work on every live instruction by itself. -/
theorem inst_simplify (hn : p.order.Nodup) (rules : List Rule) (x : InstId) :
    (p.simplify rules).inst x =
      if x ∈ p.order then rules.foldl Rule.rewrite (p.inst x) else p.inst x := by
  induction rules generalizing p with
  | nil => simp [simplify]
  | cons rule rules ih =>
      have horder := order_sweep_applyRule rule p
      have hsweep : ∀ x, (p.sweep (applyRule rule)).inst x =
          if x ∈ p.order then Rule.rewrite (p.inst x) rule else p.inst x := fun x => by
        rw [sweep_eq_foldl (order_applyRule rule)]
        exact inst_foldl_modify _ hn p x
      refine (ih (horder ▸ hn)).trans ?_
      rw [horder, hsweep]
      split <;> rfl

/-- The order of the rules matters for divisions of `1.0` only. -/
theorem simplify_eq_iff (hn : p.order.Nodup) {rules : List Rule}
    (hrules : rules.Perm Rule.identities) : p.simplify rules = p.simplify Rule.identities ↔
      [.unitProduct, .reciprocal].Sublist rules ∨
        ∀ id ∈ p.order, (p.inst id).dividesOne = false := by
  have hinsts : p.simplify rules = p.simplify Rule.identities ↔
      ∀ id ∈ p.order, rules.foldl Rule.rewrite (p.inst id) =
        Rule.identities.foldl Rule.rewrite (p.inst id) := by
    constructor
    · intro hsame id hid
      have hinst := congrArg (fun q => q.inst id) hsame
      simpa only [inst_simplify hn, if_pos hid] using hinst
    · intro hsame
      ext1
      · rw [order_simplify, order_simplify]
      · rw [size_simplify, size_simplify]
      · funext id
        rw [inst_simplify hn, inst_simplify hn]
        split
        case isTrue hid => exact hsame id hid
        case isFalse => rfl
  rw [hinsts]
  simp only [Rule.foldl_rewrite_eq_iff hrules]
  by_cases hbefore : [Rule.unitProduct, Rule.reciprocal].Sublist rules
  · simp [hbefore]
  · simp [hbefore]

end Program

/-! ## The running code -/

/-- Sweeping with a rule applies it to the whole program. -/
theorem computes_ruleSweep {p : Program} (hk : ∀ id ∈ p.order, p.Known id) (rule : Rule) :
    Computes rule.sweep p () (p.sweep (Program.applyRule rule)) := by
  refine computes_forEach (fun q => ∀ id ∈ q.order, q.Known id) (fun q id hq _ hid => ?_) hk
  exact ⟨computes_ruleVisit (hq id hid) rule, hq, .of_order_eq hid rfl rfl⟩

/-- Sweeping with rules applies them one after the other. -/
theorem computes_simplify {p : Program} (hk : ∀ id ∈ p.order, p.Known id) (rules : List Rule) :
    Computes (rules.forM Rule.sweep) p () (p.simplify rules) := by
  refine (computes_forM (fun q => ∀ id ∈ q.order, q.Known id) rules (fun q rule _ hq => ?_) hk).1
  refine ⟨computes_ruleSweep hq rule, fun id hid => ?_⟩
  rw [Program.order_sweep_applyRule] at hid
  simpa only [Program.Known, Program.size_sweep_applyRule] using hq id hid

/-- The pass applies the rules in one fixed order. -/
theorem algebra_eq : algebra = Rule.identities.forM Rule.sweep := by
  simp only [algebra, Rule.identities, List.forM_eq_forM, List.forM_cons, List.forM_nil,
    bind_pure_unit]

/-- Sweeps with the three rules in any order never fault. They leave what the pass leaves exactly if
the rule for products comes before the one for divisions, or no live instruction divides `1.0` by a
float literal. -/
theorem algebra_order_iff {w : Workspace} {p : Program} (hw : w.store.Holds p) {rules : List Rule}
    (hrules : rules.Perm [.unitProduct, .unitProductSum, .reciprocal]) :
    ∃ w₁ w₂, algebra w = .ok () w₁ ∧ rules.forM Rule.sweep w = .ok () w₂ ∧
      (w₂.store = w₁.store ↔ [.unitProduct, .reciprocal].Sublist rules ∨
        ∀ id ∈ p.order, (p.inst id).dividesOne = false) := by
  obtain ⟨w₁, hrun₁, hholds₁⟩ := computes_simplify hw.known Rule.identities w hw
  obtain ⟨w₂, hrun₂, hholds₂⟩ := computes_simplify hw.known rules w hw
  have htemps : ∀ rules : List Rule, Keeps (fun w => w.store.temps) (rules.forM Rule.sweep) :=
    .forM (.ruleSweep aside_temps)
  refine ⟨w₁, w₂, algebra_eq ▸ hrun₁, hrun₂, ?_⟩
  rw [← Program.simplify_eq_iff hw.nodup hrules]
  constructor
  · intro hsame
    rw [← hholds₁.program_eq, ← hholds₂.program_eq, hsame]
  · intro hsame
    rw [hsame] at hholds₂
    exact hholds₁.eq_of_temps_eq hholds₂
      (((htemps rules).of_ok hrun₂).trans ((htemps _).of_ok hrun₁).symm)

/-- The rules from the last to the first, where no division is one of `1.0`. -/
theorem algebra_order_of_reversed :
    let source := "x = div_f(a, 2.0)\ny = mul_f(1.0, x)\nz = muladd_f(y, 1.0, 0.1)\n"
    let output := "x = mul_f(a, 0.5)\ny = move(x)\nz = add_f(y, 0.1)\n"
    let rules := [Rule.reciprocal, .unitProductSum, .unitProduct]
    ∃ w w₁ w₂, Source.load source.toUTF8.toList {} = .ok (.ok ()) w ∧
      rules.Perm [.unitProduct, .unitProductSum, .reciprocal] ∧ algebra w = .ok () w₁ ∧
      w₁.store.program.listing = output ∧ rules.forM Rule.sweep w = .ok () w₂ ∧
      w₂.store = w₁.store := by
  intro source output rules
  have hruns : ∃ w ∈ after? (Source.load source.toUTF8.toList) {},
      (∀ id ∈ w.store.program.order, (w.store.program.inst id).dividesOne = false) ∧
      ∃ w₁ ∈ left? algebra w, w₁.store.program.listing = output := by
    decide +kernel
  obtain ⟨w, hread, hnone, w₁, hdone, htext⟩ := hruns
  obtain ⟨_, hload⟩ := exists_of_after? hread
  obtain ⟨_, halgebra⟩ := exists_of_left? hdone
  have hrules : rules.Perm [.unitProduct, .unitProductSum, .reciprocal] :=
    List.reverse_perm Rule.identities
  obtain ⟨w₁', w₂, hrun₁, hrun₂, hiff⟩ :=
    algebra_order_iff (Source.loaded_of_load hload).fresh.holds hrules
  rw [halgebra, EStateM.Result.ok.injEq] at hrun₁
  obtain ⟨-, rfl⟩ := hrun₁
  exact ⟨w, w₁, w₂, hload, hrules, halgebra, htext, hrun₂, hiff.mpr (.inr hnone)⟩

/-- A division of `1.0`: the pass leaves a product by `1.0`, the reversed order a move. -/
theorem algebra_leaves_unit_product :
    let source := "x = div_f(1.0, 2.0)\n"
    let rules := [Rule.reciprocal, .unitProductSum, .unitProduct]
    ∃ w w₁ w₂, Source.load source.toUTF8.toList {} = .ok (.ok ()) w ∧
      rules.Perm [.unitProduct, .unitProductSum, .reciprocal] ∧
      algebra w = .ok () w₁ ∧ w₁.store.program.listing = "x = mul_f(1.0, 0.5)\n" ∧
      rules.forM Rule.sweep w = .ok () w₂ ∧ w₂.store.program.listing = "x = move(0.5)\n" := by
  intro source rules
  have hruns : ∃ w ∈ after? (Source.load source.toUTF8.toList) {},
      (∃ w₁ ∈ left? algebra w, w₁.store.program.listing = "x = mul_f(1.0, 0.5)\n") ∧
      ∃ w₂ ∈ left? (rules.forM Rule.sweep) w, w₂.store.program.listing = "x = move(0.5)\n" := by
    decide +kernel
  obtain ⟨w, hread, ⟨w₁, hdone₁, htext₁⟩, w₂, hdone₂, htext₂⟩ := hruns
  obtain ⟨_, hload⟩ := exists_of_after? hread
  obtain ⟨_, hrun₁⟩ := exists_of_left? hdone₁
  obtain ⟨_, hrun₂⟩ := exists_of_left? hdone₂
  exact ⟨w, w₁, w₂, hload, List.reverse_perm Rule.identities, hrun₁, htext₁, hrun₂, htext₂⟩

end Straightline
