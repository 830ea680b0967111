import Straightline.Proofs.Phases
import Straightline.Proofs.Reading
import Straightline.Proofs.Soundness

/-!
# Compilation preserves meaning

Compiling a program that was read changes neither what its names hold at the end nor what any other
name holds, for every interpretation of the opcodes that is lawful (`names_run_of_compile`).

The steps of passes and of lowering keep a program tame, and take a model of it to a model with the
same names (`Soundness`). A run of such steps does so by induction; what remains is that a program
that was read is tame in the first place, as far as reading has a say in it.
-/

set_option autoImplicit false

namespace Straightline

variable {V : Type*} {I : Interpretation V} {names : String → V} {m : State V}

/-! ## Runs of steps -/

namespace Program

variable {p q : Program} {L : Literal → Prop}

/-- Passes keep a program tame. -/
theorem Rewrites.tame (hr : Rewrites L p q) (hp : p.Consistent) (h : p.Tame) : q.Tame := by
  induction hr with
  | refl => exact h
  | tail hpq hstep ih => exact hstep.tame (Rewrites.consistent hpq hp) ih

/-- Passes keep the models of a program. -/
theorem Rewrites.models (hr : Rewrites L p q) (hI : I.Lawful) (hp : p.Consistent) (h : p.Tame)
    (hc : I.HoldsConstants names) (hm : I.Models names p m) : I.Models names q m := by
  induction hr with
  | refl => exact hm
  | tail hpq hstep ih =>
      have hpq' : Rewrites L p _ := hpq
      exact hstep.models hI (hpq'.consistent hp) (hpq'.tame hp h) hc ih

/-- An analysis changes use-sets only. -/
theorem Tame.analyze (h : p.Tame) : p.analyze.Tame := by
  have hsame : ∀ {x}, x ∈ p.analyze.order → x ∈ p.order := fun hx => by
    rwa [order_analyze] at hx
  have hdef : ∀ {x n}, p.analyze.Defines x n → p.Defines x n := by
    rintro x n ⟨hx, ht, hd⟩
    rw [inst_analyze (hsame hx)] at ht hd
    exact ⟨hsame hx, ht, hd⟩
  refine ⟨⟨fun hx hy => h.unique (hdef hx) (hdef hy), fun {x y n} hd hx hread => ?_⟩,
    ?_, ?_, ?_, ?_⟩
  · rw [inst_analyze (hsame hx)] at hread
    rw [Precedes, order_analyze]
    exact h.reads (hdef hd) (hsame hx) hread
  all_goals
    intro x hx
    rw [inst_analyze (hsame hx)]
  · exact h.moves x (hsame hx)
  · exact h.reserved x (hsame hx)
  · exact h.ops x (hsame hx)
  · exact h.operands x (hsame hx)

end Program

/-- Lowering keeps a program tame, and the names of its models. -/
theorem LowerSteps.models {source : Program} {s t : Built × Program} (hst : LowerSteps source s t)
    (hI : I.Lawful) (hs : source.Valid) (hl : Lowering source s) (h : s.2.Tame)
    (hm : I.Models names s.2 m) :
    t.2.Tame ∧ ∃ m', I.Models names t.2 m' ∧ m'.names = m.names := by
  induction hst with
  | refl => exact ⟨h, m, hm, rfl⟩
  | tail hsteps hstep ih =>
      obtain ⟨htame, m', hm', hnames⟩ := ih
      have hl' := LowerSteps.keeps hsteps hs hl
      obtain ⟨m'', hm'', hnames'⟩ := hstep.models hI hl' htame hm'
      exact ⟨hstep.tame hl' htame, m'', hm'', hnames'.trans hnames⟩

/-- What a compilation does to the program keeps the names of its models. -/
theorem models_compile (pipeline : Pipeline) {p lowered : Program} {built : Built} (hI : I.Lawful)
    (hp : p.Valid) (h : p.Tame) (hc : I.HoldsConstants names)
    (hsteps : LowerSteps (p.analyze.optimize pipeline) ([], p.analyze.optimize pipeline)
      (built, lowered)) (hm : I.Models names p m) :
    (lowered.analyze.optimize pipeline).Tame ∧
      ∃ m', I.Models names (lowered.analyze.optimize pipeline) m' ∧ m'.names = m.names := by
  -- the first phase
  have hfirst := Program.rewrites_optimize pipeline hp.analyze
  have hconsistent := hfirst.consistent hp.analyze
  have htame := hfirst.tame hp.analyze h.analyze
  have hmodel := hfirst.models hI hp.analyze h.analyze hc hm.analyze
  -- lowering
  have hstart := Lowering.start hconsistent.toValid
  obtain ⟨htame', m', hm', hnames⟩ := hsteps.models hI hconsistent.toValid hstart htame hmodel
  have hvalid := (hsteps.keeps hconsistent.toValid hstart).valid
  -- the second phase
  have hsecond := Program.rewrites_optimize pipeline hvalid.analyze
  refine ⟨hsecond.tame hvalid.analyze htame'.analyze, m', ?_, hnames⟩
  exact hsecond.models hI hvalid.analyze htame'.analyze hc (hm'.analyze)

/-! ## Programs that were read -/

/-- A literal that was read is canonical. -/
theorem canonical_of_parse {token : Source.Bytes} {l : Literal}
    (h : Source.parseLiteral token = .ok l) : l.Canonical := by
  cases Source.written_of_parse h with
  | int _ => exact fun hk => absurd hk (by simp [Literal.ofInt])
  | float _ => exact Literal.canonical_ofFloatBits _

/-- Reading gives literals, opcodes and names their shape; the rest is up to the program. -/
theorem Store.Fresh.tame {s : Store} {p : Program} (h : s.Fresh p) (hs : p.SingleAssignment)
    (hmoves : ∀ id ∈ p.order, (p.inst id).op = Opcode.move → (p.inst id).args.length = 1)
    (hreserved : ∀ id ∈ p.order, isConstant (p.inst id).dst = false) : p.Tame := by
  refine ⟨hs, fun id hid hop => ?_, hreserved, fun id hid => ?_, fun id hid v hv => ?_⟩
  · exact List.length_eq_one_iff.mp (hmoves id hid hop)
  · obtain ⟨temps, hi⟩ := h.statement id hid
    exact isWord_of_isName hi.op
  · obtain ⟨temps, hi⟩ := h.statement id hid
    cases hi.args v hv with
    | literal hl => exact .literal (canonical_of_parse hl)
    | name hn _ => exact .name (isWord_of_isName hn)
    | ref _ _ _ => exact .ref _

/-- Compiling a program that was read, in which each name is written once and read afterwards, a
move has one operand and nothing writes a constant, gives a result. If it succeeds, then a run of
the compiled program leaves every name as a run of the program does, if it starts with the same
names and with the constants in place. -/
theorem names_run_of_compile {source : Source.Bytes} {w₀ w w₁ : Workspace}
    (hload : Source.load source w₀ = .ok (.ok ()) w) (hw : w₁.store = w.store)
    (hs : w.store.program.SingleAssignment)
    (hmoves : ∀ id ∈ w.store.program.order, (w.store.program.inst id).op = Opcode.move →
      (w.store.program.inst id).args.length = 1)
    (hreserved : ∀ id ∈ w.store.program.order, isConstant (w.store.program.inst id).dst = false)
    (rounds slots : Int) (hI : I.Lawful) :
    ∃ r w', (Pipeline.standard rounds slots).compile w₁ = .ok r w' ∧
      (r = .ok () → ∀ s s' : State V, s.names = s'.names → I.HoldsConstants s.names →
        (I.run w'.store.program s').names = (I.run w.store.program s).names) := by
  obtain ⟨r₁, w₁', hl, hloaded, -⟩ := Source.load_eq source w₀
  rw [hload, EStateM.Result.ok.injEq] at hl
  obtain ⟨rfl, rfl⟩ := hl
  have hfresh := (hloaded rfl).fresh
  have htame := hfresh.tame hs hmoves hreserved
  have hholds : w₁.store.Holds w.store.program := hw ▸ hfresh.holds
  rcases computes_compile (Pipeline.standard rounds slots) hfresh.valid with
    ⟨e, q, hq⟩ | ⟨_, q, hq, built, lowered, hsteps, -, -, rfl, hc, -⟩
  · obtain ⟨w', hrun, -⟩ := hq w₁ hholds
    exact ⟨_, w', hrun, by simp⟩
  · obtain ⟨w', hrun, hholds'⟩ := hq w₁ hholds
    refine ⟨_, w', hrun, fun _ s s' hnames hconstants => ?_⟩
    have hm := Interpretation.models_run (I := I) hfresh.valid hs s
    obtain ⟨htame', m', hm', hsame⟩ := models_compile _ hI hfresh.valid htame hconstants hsteps hm
    rw [hholds'.program_eq, ← hsame]
    rw [hnames] at hm'
    exact hm'.names_run hc.toValid htame'.toSingleAssignment

/-! ## A machine of words -/

namespace Interpretation

/-- A product of words in which the bits of one are neutral. -/
def wordProduct (a b : UInt32) : UInt32 :=
  if a = Binary32.one then b else if b = Binary32.one then a else a * b

/-- Words as values. Literals are their bits, and missing operands are zero. -/
def words : Interpretation UInt32 where
  literal l := l.bits
  op name args :=
    let x := args.getD 0 0
    let y := args.getD 1 0
    let z := args.getD 2 0
    match name with
    | "move" => x
    | "add_f" => x + y
    | "sub_f" => x - y
    | "mul_f" => wordProduct x y
    | "div_f" => wordProduct x (Binary32.canonical (Binary32.reciprocal y))
    | "muladd_f" => wordProduct x y + z
    | "mulsub_f" => wordProduct x y - z
    | "gt_i" | "gt_i_imm" => if y < x then 1 else 0
    | "sub_i" | "sub_i_imm" => x - y
    | "lu_imm" => x <<< 13
    | "or_i_imm" => x ||| y
    | _ => 0

theorem wordProduct_one (a : UInt32) : wordProduct a Binary32.one = a := by
  unfold wordProduct
  split
  · rename_i ha
    exact ha.symm
  · rfl

/-- The bits of an integer are the integer. -/
theorem bits_ofInt (x : UInt32) : (Literal.ofInt x.toNat).bits = x := by
  apply UInt32.toNat_inj.mp
  exact Source.toNat_bits_ofInt x.toNat_lt

/-- The two fields of a literal make up its bits. -/
theorem high_or_low (l : Literal) : l.high <<< 13 ||| l.low = l.bits := by
  have hmask : ∀ i (hi : i < 32), (8191#32)[i] = decide (i < 13) := by decide
  unfold Literal.high Literal.low
  apply UInt32.toBitVec_inj.mp
  ext i hi
  by_cases h : i < 13
  · simp [h, hmask]
  · have hback : 13 + (i - 13) = i := by omega
    simp [h, hmask, hback, BitVec.getLsbD_eq_getElem hi]

/-- Words are lawful. -/
theorem lawful_words : words.Lawful where
  move x := rfl
  unitProduct x := rfl
  unitProductSum a b := by
    show wordProduct a Binary32.one + b = a + b
    rw [wordProduct_one]
  reciprocal x k := rfl
  mulAdd _ _ _ := rfl
  addMul a b c := UInt32.add_comm _ _
  mulSub _ _ _ := rfl
  gtImmediate args := rfl
  subImmediate args := rfl
  upper l hl := by
    have hbits := high_or_low l
    rw [hl, UInt32.or_zero] at hbits
    show (Literal.ofInt l.high.toNat).bits <<< 13 = l.bits
    rw [bits_ofInt, hbits]
  both l := by
    show (Literal.ofInt l.high.toNat).bits <<< 13 ||| (Literal.ofInt l.low.toNat).bits = l.bits
    rw [bits_ofInt, bits_ofInt, high_or_low]

end Interpretation

/-- A product that is merged into its consumer and another one that is dropped, a division, a
product with one, a literal that is lifted and two that are lowered, on words. -/
theorem names_run_of_compiled_words :
    let source := "T_a = mul_f(x, y)\nT_b = mul_f(x, y)\nz = add_f(T_a, 2.5)\n" ++
      "T_c = div_f(z, 4.0)\nT_d = mul_f(1.0, T_c)\nv = move(T_d)\n" ++
      "T_e = add_f(T_c, 2.1)\nu = gt_i(T_e, 3)\n"
    let words := Interpretation.words
    ∃ w w' names, Source.load source.toUTF8.toList {} = .ok (.ok ()) w ∧
      (Pipeline.standard 2 6).compile w = .ok (.ok ()) w' ∧ words.HoldsConstants names ∧
      ∀ s s' : State UInt32, s.names = names → s'.names = names →
        (words.run w'.store.program s').names = (words.run w.store.program s).names := by
  intro source words
  have hshape : ∃ p ∈ Source.program? source.toUTF8.toList, p.SingleAssignment ∧
      (∀ id ∈ p.order, (p.inst id).op = Opcode.move → (p.inst id).args.length = 1) ∧
      ∀ id ∈ p.order, isConstant (p.inst id).dst = false := by decide +kernel
  obtain ⟨_, hp, hs, hmoves, hreserved⟩ := hshape
  obtain ⟨w, hload, rfl⟩ := Source.exists_load_of_program? hp
  obtain ⟨r, w', hcompile, hsame⟩ :=
    names_run_of_compile hload rfl hs hmoves hreserved 2 6 Interpretation.lawful_words
  have hdone : succeeds (do
      let _ ← Source.load source.toUTF8.toList
      (Pipeline.standard 2 6).compile) {} = true := by decide +kernel
  obtain ⟨u, w'', hall⟩ := exists_of_succeeds hdone
  rw [bind_of_ok hload, hcompile, EStateM.Result.ok.injEq] at hall
  obtain ⟨rfl, rfl⟩ := hall
  obtain ⟨names, hnames⟩ := Literal.exists_constants words.literal
  refine ⟨w, w', names, hload, hcompile, hnames, ?_⟩
  rintro s s' rfl hs'
  exact hsame rfl s s' hs'.symm hnames

end Straightline
