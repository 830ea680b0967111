import Mathlib.Data.List.Dedup
import Straightline.Proofs.Destinations
import Straightline.Proofs.Moments
import Straightline.Proofs.Writable

/-!
# Immediates of compiled programs

Lowering leaves three kinds of instructions with an integer in place: `lu_imm` sets the upper bits
of a word, `or_i_imm` adds the low field to what a `lu_imm` has set, and comparisons and
subtractions have their immediate forms. `Program.Immediates` says so, with one exception: literals
in a given set may stand in constants. Lowering establishes it without exceptions
(`LowerStep.immediates`). The passes after it keep it up to the literals that they lift
(`Program.Rewrite.immediates`).

Lifting looks at the literal and not at the opcode, so what leaves its place is what the second
phase lifts (`Pipeline.LiftsLate`). That is nothing where the names that the program writes need all
slots, and more generally where no slot is free, or no literal takes instructions to build, whenever
the second phase comes to lift (`immediates_of_compile`). With a slot that becomes free on the way
an immediate can end up in a constant (`immediate_lifted_into_constant`).
-/

set_option autoImplicit false

namespace Straightline

/-- The operand is the literal, or its constant if the literal may have been lifted. -/
inductive Value.Carries (lifted : Literal → Prop) (l : Literal) : Value → Prop where
  | literal : Carries lifted l (.literal l)
  | constant (h : lifted l) : Carries lifted l (.name l.constantName)

/-- The instruction has its immediates in place, apart from literals that may have been lifted.
Upper bits are set by the instructions in `U`. -/
structure Inst.Immediate (lifted : Literal → Prop) (U : InstId → Prop) (i : Inst) :
    Prop where
  upper : i.op = Opcode.luImm → ∃ (v : Value) (n : Nat), i.args = [v] ∧ n < 2 ^ 19 ∧
    v.Carries lifted (.ofInt n)
  both : i.op = Opcode.orIImm → ∃ (r : InstId) (n : Nat),
    i.args = [.ref r, .literal (.ofInt n)] ∧ U r ∧ 1 ≤ n ∧ n < 2 ^ 13
  form : i.op = Opcode.gtI ++ Opcode.immediateMark ∨ i.op = Opcode.subI ++ Opcode.immediateMark →
    ∃ v ∈ i.args, ∃ l : Literal, l.kind = .int ∧ v.Carries lifted l

namespace Program

/-- A live instruction that sets the upper bits of a word. -/
def IsUpper (p : Program) (r : InstId) : Prop := r ∈ p.order ∧ (p.inst r).op = Opcode.luImm

/-- Live instructions have their immediates in place, apart from literals that may have been
lifted. -/
def Immediates (lifted : Literal → Prop) (p : Program) : Prop :=
  ∀ id ∈ p.order, (p.inst id).Immediate lifted p.IsUpper

end Program

open Program

variable {lifted : Literal → Prop} {U : InstId → Prop}

/-- An operand that carries a literal does so when more may have been lifted. -/
theorem Value.Carries.mono {lifted' : Literal → Prop} {l : Literal} {v : Value}
    (h : v.Carries lifted l) (hl : lifted l → lifted' l) : v.Carries lifted' l := by
  cases h with
  | literal => exact .literal
  | constant h => exact .constant (hl h)

/-- If nothing was lifted, the literal is in place. -/
theorem Value.Carries.eq_literal {l : Literal} {v : Value} (h : v.Carries (fun _ => False) l) :
    v = .literal l := by
  cases h with
  | literal => rfl
  | constant h => exact h.elim

/-- Immediates are in place when more may have been lifted and more sets upper bits. -/
theorem Inst.Immediate.mono {lifted' : Literal → Prop} {U' : InstId → Prop} {i : Inst}
    (h : i.Immediate lifted U) (hl : ∀ l, lifted l → lifted' l)
    (hu : ∀ r, U r → U' r) : i.Immediate lifted' U' := by
  refine ⟨fun hop => ?_, fun hop => ?_, fun hop => ?_⟩
  · obtain ⟨v, n, hargs, hn, hv⟩ := h.upper hop
    exact ⟨v, n, hargs, hn, hv.mono (hl _)⟩
  · obtain ⟨r, n, hargs, hr, hn⟩ := h.both hop
    exact ⟨r, n, hargs, hu r hr, hn⟩
  · obtain ⟨v, hv, l, hk, hc⟩ := h.form hop
    exact ⟨v, hv, l, hk, hc.mono (hl l)⟩

/-- Other opcodes have no immediates to speak of. -/
theorem immediate_of_not_isImmediate {i : Inst} (h : Opcode.isImmediate i.op = false) :
    i.Immediate lifted U := by
  refine ⟨fun hop => ?_, fun hop => ?_, fun hop => ?_⟩
  · rw [hop, Opcode.isImmediate_luImm] at h
    exact absurd h (by simp)
  · rw [hop, Opcode.isImmediate_orIImm] at h
    exact absurd h (by simp)
  · have himm : Opcode.isImmediate i.op = true := by
      rcases hop with hop | hop
      · exact hop ▸ Opcode.isImmediate_append _
      · exact hop ▸ Opcode.isImmediate_append _
    exact absurd (himm.symm.trans h) (by simp)

/-! ## Lowering -/

/-- An instruction made to set upper bits has them in place. -/
theorem immediate_upper {i : Inst} {l : Literal} (hop : i.op = Opcode.luImm)
    (hargs : i.args = [immediate l.high]) : i.Immediate lifted U := by
  refine ⟨fun _ => ⟨_, l.high.toNat, hargs, l.toNat_high_lt, .literal⟩, fun h => ?_, fun h => ?_⟩
  · exact absurd (hop.symm.trans h) (by decide)
  · rw [hop] at h
    exact absurd h (by decide)

/-- An instruction made to add a low field has it in place. -/
theorem immediate_lowInst {l : Literal} (hlow : l.low ≠ 0) {r : InstId} (hr : U r) :
    (lowInst l [.ref r, immediate l.low]).Immediate lifted U := by
  have hpos : 1 ≤ l.low.toNat := by
    apply Nat.pos_of_ne_zero
    intro h
    exact hlow (UInt32.toNat_inj.mp h)
  refine ⟨fun h => ?_, fun _ => ⟨r, l.low.toNat, rfl, hr, hpos, l.toNat_low_lt⟩, fun h => ?_⟩
  · exact absurd h (by decide : Opcode.orIImm ≠ Opcode.luImm)
  · have hne : ¬ (Opcode.orIImm = Opcode.gtI ++ Opcode.immediateMark ∨
        Opcode.orIImm = Opcode.subI ++ Opcode.immediateMark) := by decide
    exact absurd h hne

/-- A float that is replaced was no immediate. -/
theorem Inst.Immediate.place {i : Inst} (h : i.Immediate lifted U) {position : Nat}
    {l : Literal} (ha : i.args[position]? = some (.literal l)) (hk : l.kind = .float) (r : InstId) :
    Inst.Immediate lifted U { i with args := i.args.set position (.ref r) } := by
  have hne : ∀ (v : Value) (m : Literal), m.kind = .int → v.Carries lifted m → v ≠ .literal l := by
    rintro v m hm hv rfl
    cases hv with
    | literal => exact absurd (hm.symm.trans hk) (by simp)
  have hmem := List.mem_of_getElem? ha
  refine ⟨fun hop => ?_, fun hop => ?_, fun hop => ?_⟩
  · obtain ⟨v, n, hargs, -, hv⟩ := h.upper hop
    rw [hargs] at hmem
    exact absurd (List.mem_singleton.mp hmem).symm (hne v _ rfl hv)
  · obtain ⟨x, n, hargs, -, -⟩ := h.both hop
    have hl : l = .ofInt n := by simpa [hargs] using hmem
    rw [hl] at hk
    exact absurd hk (by simp [Literal.ofInt])
  · obtain ⟨v, hv, m, hm, hc⟩ := h.form hop
    refine ⟨v, ?_, m, hm, hc⟩
    obtain ⟨k, hk', rfl⟩ := List.mem_iff_getElem.mp hv
    have hkp : k ≠ position := by
      rintro rfl
      apply hne _ m hm hc
      rw [List.getElem?_eq_getElem hk'] at ha
      exact Option.some.inj ha
    have hset : (i.args.set position (.ref r))[k]? = some i.args[k] := by
      rw [List.getElem?_set_ne hkp.symm]
      exact List.getElem?_eq_getElem hk'
    exact List.mem_of_getElem? hset

/-- The immediate form of an opcode neither sets upper bits nor adds a low field. -/
theorem immediateForm_ne {op : String} (h : op = Opcode.gtI ∨ op = Opcode.subI) :
    op ++ Opcode.immediateMark ≠ Opcode.luImm ∧ op ++ Opcode.immediateMark ≠ Opcode.orIImm := by
  rcases h with rfl | rfl
  · exact ⟨by decide, by decide⟩
  · exact ⟨by decide, by decide⟩

/-- An integer that is encoded is an immediate. -/
theorem immediate_of_encodeInteger {l : Literal} {i i' : Inst} (ha : .literal l ∈ i.args)
    (hk : l.kind = .int) (hi : encodeInteger l i = .ok i') (h : i.Immediate lifted U) :
    i'.Immediate lifted U := by
  rcases encodeInteger_eq_ok hi with ⟨-, -, rfl⟩ | ⟨-, rfl⟩ | ⟨hop, rfl⟩
  · exact immediate_upper rfl rfl
  · exact h
  · obtain ⟨hlu, hor⟩ := immediateForm_ne hop
    exact ⟨fun h => absurd h hlu, fun h => absurd h hor, fun _ => ⟨_, ha, l, hk, .literal⟩⟩

/-- A float with a low field is built from an instruction that sets its upper bits. -/
theorem isUpper_buildFloat {p : Program} (hp : p.Valid) {l : Literal} (hlow : l.low ≠ 0) :
    (p.buildFloat l).2.IsUpper p.nextId.succ := by
  obtain ⟨front, ho, hmem, -⟩ := order_buildFloat (p := p) l
  have hnew : p.nextId ∈ (p.buildFloat l).2.order := by simp [ho, hmem]
  cases builds_buildFloat (p := p) l with
  | upper h _ => exact absurd h hlow
  | both _ hh hi =>
      have href : .ref p.nextId.succ ∈ ((p.buildFloat l).2.inst p.nextId).args := by
        rw [hi]
        simp [lowInst]
      refine ⟨((hp.buildFloat l).refs _ hnew _ href).1.left_mem, ?_⟩
      rw [hh]
      rfl

/-- Lowering keeps what sets upper bits. -/
theorem LowerStep.isUpper {source : Program} {s t : Built × Program} (hst : LowerStep source s t)
    (hl : Lowering source s) {r : InstId} (h : s.2.IsUpper r) : t.2.IsUpper r := by
  obtain ⟨hr, hop⟩ := h
  cases hst with
  | @build built p id l _ _ _ _ =>
      obtain ⟨front, ho, -, -⟩ := order_buildFloat (p := p) l
      refine ⟨by simpa [ho] using Or.inr hr, ?_⟩
      rw [inst_buildFloat_of_known l (hl.valid.known r hr)]
      exact hop
  | place =>
      refine ⟨hr, ?_⟩
      dsimp only at hop ⊢
      rw [inst_modify]
      split
      · rename_i hrid
        exact hrid ▸ hop
      · exact hop
  | @encode built p id l i _ _ _ hi =>
      refine ⟨hr, ?_⟩
      dsimp only at hop ⊢
      rw [inst_modify]
      split
      · rename_i hrid
        subst hrid
        rcases encodeInteger_eq_ok hi with ⟨-, -, rfl⟩ | ⟨-, rfl⟩ | ⟨hform, -⟩
        · rfl
        · exact hop
        · rw [hop] at hform
          exact absurd hform (by decide)
      · exact hop

/-- A step of lowering puts immediates in place and leaves them there. -/
theorem LowerStep.immediates {source : Program} {s t : Built × Program}
    (hst : LowerStep source s t) (hl : Lowering source s) (h : s.2.Immediates lifted) :
    t.2.Immediates lifted := by
  apply hst.forall_inst (Inst.Immediate lifted t.2.IsUpper) hl
  case hupper => exact fun l _ => immediate_upper rfl rfl
  case hhigh => exact fun l _ => immediate_upper rfl rfl
  case hlow =>
    intro l ht hlow
    apply immediate_lowInst hlow
    rw [ht]
    exact isUpper_buildFloat hl.valid hlow
  case hplace => exact fun i position l r ha hk hi => hi.place ha hk r
  case hencode => exact fun l i i' ha hk hcode hi => immediate_of_encodeInteger ha hk hcode hi
  case h => exact fun x hx => (h x hx).mono (fun _ h => h) fun r hr => hst.isUpper hl hr

/-! ## Steps of passes -/

namespace Program

variable {L : Literal → Prop} {p q : Program}

/-- The operands at `x` are those before, mapped by `g`: names stay, literals stay or are lifted,
and references to upper bits lead to upper bits. -/
structure Maps (L : Literal → Prop) (p q : Program) (x : InstId) (g : Value → Value) : Prop where
  args : (q.inst x).args = (p.inst x).args.map g
  name : ∀ s, g (.name s) = .name s
  literal : ∀ l, g (.literal l) = .literal l ∨ L l ∧ g (.literal l) = .name l.constantName
  upper : ∀ r, .ref r ∈ (p.inst x).args → p.IsUpper r → ∃ r', g (.ref r) = .ref r' ∧ q.IsUpper r'

/-- No opcode that a pass brings in takes an integer in place. -/
theorem isImmediate_of_introduced {op : String} (h : op ∈ introduced) :
    Opcode.isImmediate op = false := by
  have hall : ∀ op ∈ introduced, Opcode.isImmediate op = false := by decide
  exact hall op h

/-- No opcode begins or ceases to take an integer in place. -/
theorem Rewrite.isImmediate_op (hr : Rewrite L p q) (hp : p.Consistent) {x : InstId}
    (hx : x ∈ q.order) : Opcode.isImmediate (q.inst x).op = Opcode.isImmediate (p.inst x).op := by
  cases hr.reshaped hp hx with
  | same hop _ => rw [hop]
  | changed hold hop _ => rw [hold, isImmediate_of_introduced hop]
  | moved hold hop _ =>
      rw [hold, hop]
      decide

/-- A step keeps opcodes that take an integer in place. -/
theorem Rewrite.op_of_isImmediate (hr : Rewrite L p q) (hp : p.Consistent) {x : InstId}
    (hx : x ∈ q.order) (himm : Opcode.isImmediate (p.inst x).op = true) :
    (q.inst x).op = (p.inst x).op := by
  cases hr.reshaped hp hx with
  | same hop _ => exact hop
  | changed hold _ _ => exact absurd (himm.symm.trans hold) (by simp)
  | moved hold _ _ => exact absurd (himm.symm.trans hold) (by simp)

/-- A step keeps what sets upper bits, unless it is taken out. -/
theorem Rewrite.isUpper (hr : Rewrite L p q) (hp : p.Consistent) {r : InstId} (hq : r ∈ q.order)
    (h : p.IsUpper r) : q.IsUpper r := by
  have himm : Opcode.isImmediate (p.inst r).op = true := by
    rw [h.2]
    exact Opcode.isImmediate_luImm
  exact ⟨hq, (hr.op_of_isImmediate hp hq himm).trans h.2⟩

/-- An algebraic rule applies to no opcode that takes an integer in place. -/
theorem isImmediate_of_rule {rule : Rule} (hr : rule.IsIdentity) {i i' : Inst} {e : Event}
    (h : rule i = some (i', e)) : Opcode.isImmediate i.op = false := by
  rcases hr with rfl | rfl | rfl
  · obtain ⟨x, hop, -⟩ := unitProduct_eq_some h
    rw [hop]
    decide
  · obtain ⟨a, b, hop, -⟩ := unitProductSum_eq_some h
    rw [hop]
    decide
  · obtain ⟨x, k, hop, -⟩ := reciprocal_eq_some h
    rw [hop]
    decide

/-- A product is merged into no opcode that takes an integer in place. -/
theorem isImmediate_of_fuse? {mul : InstId} {a b : Value} {user fused : Inst}
    (h : Fusion.fuse? mul a b user = some fused) : Opcode.isImmediate user.op = false := by
  obtain ⟨y, ⟨hop, -⟩ | ⟨hop, -⟩⟩ := fuse?_eq_some h
  · rw [hop]
    decide
  · rw [hop]
    decide

/-- An instruction with another opcode sets no upper bits. -/
theorem IsUpper.ne {r id : InstId} (h : p.IsUpper r) (hid : (p.inst id).op ≠ Opcode.luImm) :
    r ≠ id := by
  rintro rfl
  exact hid h.2

section Maps

variable {x : InstId}

/-- Operands that stay are mapped to themselves. -/
theorem maps_of_same (hargs : (q.inst x).args = (p.inst x).args)
    (hupper : ∀ r, .ref r ∈ (p.inst x).args → p.IsUpper r → q.IsUpper r) : Maps L p q x id where
  args := by rw [hargs, List.map_id]
  name _ := rfl
  literal _ := .inl rfl
  upper r hr hu := ⟨r, rfl, hupper r hr hu⟩

/-- References to one instruction are replaced. -/
theorem maps_of_replace (old : InstId) (new : Value)
    (hargs : (q.inst x).args = ((p.inst x).replace (.ref old) new).args)
    (hold : p.IsUpper old → ∃ r', new = .ref r' ∧ q.IsUpper r')
    (hupper : ∀ r, r ≠ old → p.IsUpper r → q.IsUpper r) :
    Maps L p q x fun v => if v = .ref old then new else v where
  args := hargs
  name s := if_neg (by simp)
  literal l := .inl (if_neg (by simp))
  upper r _ hu := by
    by_cases hr : r = old
    · subst hr
      rw [if_pos rfl]
      exact hold hu
    · exact ⟨r, if_neg (by simp [hr]), hupper r hr hu⟩

/-- Operands are mapped to constants by lifting. -/
theorem maps_of_lift {chosen : List Literal} (hl : ∀ l ∈ chosen, L l)
    (hargs : (q.inst x).args = (p.inst x).args.map (liftOperand chosen))
    (hupper : ∀ r, p.IsUpper r → q.IsUpper r) : Maps L p q x (liftOperand chosen) where
  args := hargs
  name _ := rfl
  literal l := by
    by_cases h : chosen.contains l = true
    · exact .inr ⟨hl l (by simpa using h), if_pos h⟩
    · exact .inl (if_neg h)
  upper r _ hu := ⟨r, rfl, hupper r hu⟩

end Maps

/-- What a step does to the operands of an instruction that takes an integer in place. -/
theorem Rewrite.maps (hr : Rewrite L p q) (hp : p.Consistent) (hw : p.Writable) {x : InstId}
    (hx : x ∈ q.order) (himm : Opcode.isImmediate (p.inst x).op = true) : ∃ g, Maps L p q x g := by
  have hxo := hr.mem_order hx
  have hupper : ∀ r, r ∈ q.order → p.IsUpper r → q.IsUpper r := fun r hq hu => hr.isUpper hp hq hu
  cases hr with
  | analyze =>
      refine ⟨id, maps_of_same (by rw [inst_analyze hxo]) fun r _ hu => hupper r ?_ hu⟩
      rw [order_analyze]
      exact hu.1
  | @fuse id user a b fused hid hu hc hf =>
      have hxu : x ≠ user := by
        rintro rfl
        exact absurd (himm.symm.trans (isImmediate_of_fuse? hf)) (by simp)
      have hmul : (p.inst id).op ≠ Opcode.luImm := by
        rw [(candidate?_eq_some hc).1]
        decide
      refine ⟨_, maps_of_same (by rw [inst_fuse, if_neg hxu]) fun r _ hur => hupper r ?_ hur⟩
      rw [order_fuse, hp.nodup.mem_erase_iff]
      exact ⟨hur.ne hmul, hur.1⟩
  | @simplify id rule i e hi hid hrule =>
      have hxid : x ≠ id := by
        rintro rfl
        exact absurd (himm.symm.trans (isImmediate_of_rule hi hrule)) (by simp)
      exact ⟨_, maps_of_same (by rw [inst_modify_of_ne _ hxid]) fun r _ hu => hupper r hu.1 hu⟩
  | @drop id hid hd =>
      refine ⟨_, maps_of_same rfl fun r href hu => hupper r ?_ hu⟩
      -- the instruction that goes is referred to by none
      have hne : r ≠ id := by
        rintro rfl
        exact not_mem_args_of_isDead hp hid hd x hxo href
      exact hp.nodup.mem_erase_iff.mpr ⟨hne, hu.1⟩
  | @rename id user dst uses hid hu hs hm =>
      obtain ⟨hop, hargs, rfl, rfl⟩ := moveFrom?_eq_some hm
      have hne : id ≠ user := (hp.refs user hu id (by simp [hargs])).1.ne hp.nodup
      have hmove : (p.inst user).op ≠ Opcode.luImm := by
        rw [hop]
        decide
      obtain ⟨hxu, -⟩ := hp.nodup.mem_erase_iff.mp hx
      refine ⟨_, maps_of_replace user (.ref id) ?_ (fun h => absurd rfl (h.ne hmove))
        fun r hr h => hupper r (hp.nodup.mem_erase_iff.mpr ⟨hr, h.1⟩) h⟩
      by_cases hxid : x = id
      · rw [hxid, inst_takeOver_self hp hu hne hid]
      · rw [inst_takeOver_of_ne hp hu hxu hxo hxid]
  | @forward id source uses hid hf =>
      obtain ⟨hop, -, -, rfl⟩ := forwardable?_eq_some hf
      have hmove : (p.inst id).op ≠ Opcode.luImm := by
        rw [hop]
        decide
      refine ⟨_, maps_of_replace id source (by rw [inst_bypass hp hid source hxo])
        (fun h => absurd rfl (h.ne hmove)) fun r hr h => hupper r ?_ h⟩
      have horder : (p.bypass id source (p.inst id).uses).order = p.order.erase id := by
        simp [bypass]
      rw [horder, hp.nodup.mem_erase_iff]
      exact ⟨hr, h.1⟩
  | @merge first id hpre hkey hf ht =>
      obtain ⟨hop, -⟩ := hw.eq_of_key_eq hpre.left_mem hpre.right_mem hkey
      have hfirst : first ∈ (p.merge first id).order :=
        hp.nodup.mem_erase_iff.mpr ⟨hpre.ne hp.nodup, hpre.left_mem⟩
      refine ⟨_, maps_of_replace id (.ref first)
        (by rw [inst_merge hp first hpre.right_mem hxo])
        (fun h => ⟨first, rfl, hupper first hfirst ⟨hpre.left_mem, hop.trans h.2⟩⟩)
        fun r hr h => hupper r (hp.nodup.mem_erase_iff.mpr ⟨hr, h.1⟩) h⟩
  | @lift chosen hl id hid =>
      have hall : ∀ r, p.IsUpper r → (p.liftOperands chosen id).IsUpper r := fun r hu =>
        hupper r hu.1 hu
      by_cases hxid : x = id
      · refine ⟨_, maps_of_lift hl ?_ hall⟩
        rw [hxid, liftOperands, inst_modify_self]
      · refine ⟨_, maps_of_same ?_ fun r _ hu => hall r hu⟩
        rw [liftOperands, inst_modify_of_ne _ hxid]

/-- A literal that an operand carries is carried by what it is mapped to. -/
theorem Maps.carries {x : InstId} {g : Value → Value} (hg : Maps lifted p q x g) {l : Literal}
    {v : Value} (h : v.Carries lifted l) : (g v).Carries lifted l := by
  cases h with
  | literal =>
      rcases hg.literal l with he | ⟨hl, he⟩
      · rw [he]
        exact .literal
      · rw [he]
        exact .constant hl
  | constant hl =>
      rw [hg.name]
      exact .constant hl

/-- Small integers take no instruction to build. -/
theorem not_costly_ofInt {n : Nat} (h : n < 2 ^ 13) : ¬ (Literal.ofInt n).Costly := by
  have hbits := Source.toNat_bits_ofInt (n := n) (by omega)
  have hhigh : (Literal.ofInt n).high = 0 := by
    apply UInt32.toNat_inj.mp
    unfold Literal.high
    rw [UInt32.toNat_shiftRight, hbits, Nat.shiftRight_eq_div_pow]
    simp only [UInt32.reduceToNat, Nat.reduceMod, Nat.reducePow]
    omega
  have hcost : (Literal.ofInt n).cost = if (Literal.ofInt n).high = 0 then 0 else 2 := rfl
  unfold Literal.Costly
  rw [hcost, if_pos hhigh]
  simp

/-- A step that lifts costly literals only leaves all other immediates in place. -/
theorem Rewrite.immediates (hr : Rewrite lifted p q) (hl : ∀ l, lifted l → l.Costly)
    (hp : p.Consistent) (hw : p.Writable) (h : p.Immediates lifted) : q.Immediates lifted := by
  intro x hx
  by_cases himm : Opcode.isImmediate (p.inst x).op = true
  case neg =>
    apply immediate_of_not_isImmediate
    rw [hr.isImmediate_op hp hx]
    exact Bool.eq_false_of_not_eq_true himm
  case pos =>
    obtain ⟨g, hg⟩ := hr.maps hp hw hx himm
    have hold := h x (hr.mem_order hx)
    have hop := hr.op_of_isImmediate hp hx himm
    refine ⟨fun hq => ?_, fun hq => ?_, fun hq => ?_⟩
    · obtain ⟨v, n, hargs, hn, hv⟩ := hold.upper (hop ▸ hq)
      exact ⟨g v, n, by rw [hg.args, hargs]; rfl, hn, hg.carries hv⟩
    · obtain ⟨r, n, hargs, hu, hpos, hn⟩ := hold.both (hop ▸ hq)
      obtain ⟨r', hr', hu'⟩ := hg.upper r (by simp [hargs]) hu
      have hlow : g (.literal (.ofInt n)) = .literal (.ofInt n) := by
        rcases hg.literal (.ofInt n) with he | ⟨hlift, -⟩
        · exact he
        · exact absurd (hl _ hlift) (not_costly_ofInt hn)
      exact ⟨r', n, by rw [hg.args, hargs, List.map_cons, List.map_singleton, hr', hlow], hu', hpos,
        hn⟩
    · obtain ⟨v, hv, l, hk, hc⟩ := hold.form (hop ▸ hq)
      exact ⟨g v, by rw [hg.args]; exact List.mem_map_of_mem hv, l, hk, hg.carries hc⟩

/-! ## Slots -/

/-- What was in the collection or is added is in it. -/
theorem mem_addNew_of_mem {α : Type} [BEq α] [LawfulBEq α] {xs ys : List α} {y : α}
    (h : y ∈ xs ∨ y ∈ ys) : y ∈ addNew xs ys := by
  unfold addNew
  induction ys generalizing xs with
  | nil => exact h.resolve_right (by simp)
  | cons z ys ih =>
      rw [List.foldl_cons]
      apply ih
      rcases h with h | h
      · left
        split
        · exact h
        · exact List.mem_append_left _ h
      · rcases List.mem_cons.mp h with rfl | h
        · left
          split
          · rename_i hc
            simpa using hc
          · simp
        · exact .inr h

/-- Every name that is written takes a slot. -/
theorem mem_externalNames_of_mem_namedWrites {n : String} (h : n ∈ p.namedWrites) :
    n ∈ p.externalNames := by
  have key : ∀ (ids : List InstId) (names : List String),
      (n ∈ names ∨ ∃ id ∈ ids, n ∈ (p.inst id).externalNames) →
        n ∈ ids.foldl (fun names id => addNew names (p.inst id).externalNames) names := by
    intro ids
    induction ids with
    | nil => exact fun names h => h.resolve_right (by simp)
    | cons id ids ih =>
        intro names h
        rw [List.foldl_cons]
        apply ih
        rcases h with h | ⟨x, hx, h⟩
        · exact .inl (mem_addNew_of_mem (.inl h))
        · rcases List.mem_cons.mp hx with rfl | hx
          · exact .inl (mem_addNew_of_mem (.inr h))
          · exact .inr ⟨x, hx, h⟩
  obtain ⟨id, hid, rfl⟩ := List.mem_map.mp h
  obtain ⟨ho, ht⟩ := mem_writers.mp hid
  exact key p.order [] (.inr ⟨id, ho, by simp [Inst.externalNames, ht]⟩)

/-- The number of different names that the program writes. -/
def nameCount (p : Program) : Nat := p.namedWrites.dedup.length

theorem nameCount_le (p : Program) : p.nameCount ≤ p.externalNames.length := by
  have hsub : p.namedWrites.dedup ⊆ p.externalNames := fun n hn =>
    mem_externalNames_of_mem_namedWrites (List.mem_dedup.mp hn)
  exact (List.subperm_of_subset (List.nodup_dedup _) hsub).length_le

theorem nameCount_eq (h : q.namedWrites.Perm p.namedWrites) : q.nameCount = p.nameCount :=
  h.dedup.length_eq

/-- What can be lifted from a program that writes `names` names. -/
def Liftable (slots : Int) (names : Nat) (l : Literal) : Prop := l.Costly ∧ (names : Int) < slots

/-- Literals are lifted only while there are slots for more than the names that are written. -/
theorem liftable_of_mem_chooseLiterals {slots : Int} (hslots : 0 ≤ slots) {l : Literal}
    (h : l ∈ p.chooseLiterals slots) : Liftable slots p.nameCount l := by
  refine ⟨costly_of_mem_chooseLiterals h, ?_⟩
  have hfree : 0 < (freeSlots slots p.externalNames.length).toNat := by
    by_contra hnone
    have hzero : (freeSlots slots p.externalNames.length).toNat = 0 := by omega
    unfold chooseLiterals at h
    rw [hzero, drain] at h
    simp at h
  unfold freeSlots at hfree
  rw [if_neg (by omega)] at hfree
  have hle := p.nameCount_le
  omega

/-- Nothing is lifted where the names take all slots, or where no literal takes instructions to
build. -/
theorem chooseLiterals_eq_nil {slots : Int} (hslots : 0 ≤ slots)
    (h : slots ≤ p.externalNames.length ∨ p.costlyLiterals = []) :
    p.chooseLiterals slots = [] := by
  unfold chooseLiterals
  rcases h with hfull | hnone
  · have hzero : (freeSlots slots p.externalNames.length).toNat = 0 := by
      rw [freeSlots, if_neg (by omega)]
      omega
    rw [hzero, drain]
  · rw [hnone]
    cases (freeSlots slots p.externalNames.length).toNat <;> rfl

/-! ## Compilations -/

/-- No live instruction takes an integer in place. -/
def Plain (p : Program) : Prop := ∀ id ∈ p.order, Opcode.isImmediate (p.inst id).op = false

instance (p : Program) : Decidable p.Plain := inferInstanceAs (Decidable (∀ id ∈ p.order, _))

theorem Plain.analyze (h : p.Plain) : p.analyze.Plain := by
  intro x hx
  rw [order_analyze] at hx
  rw [inst_analyze hx]
  exact h x hx

/-- A step brings in no opcode that takes an integer in place. -/
theorem Rewrite.plain (hr : Rewrite L p q) (hp : p.Consistent) (h : p.Plain) : q.Plain := by
  intro x hx
  rw [hr.isImmediate_op hp hx]
  exact h x (hr.mem_order hx)

/-- An analysis leaves immediates in place. -/
theorem Immediates.analyze (h : p.Immediates lifted) : p.analyze.Immediates lifted := by
  intro x hx
  rw [order_analyze] at hx
  have hupper : ∀ r, p.IsUpper r → p.analyze.IsUpper r := by
    intro r hu
    refine ⟨by rw [order_analyze]; exact hu.1, ?_⟩
    rw [inst_analyze hu.1]
    exact hu.2
  have hx' := (h x hx).mono (fun _ hl => hl) hupper
  rw [inst_analyze hx]
  exact ⟨hx'.upper, hx'.both, hx'.form⟩

/-- A run of steps that lift costly literals only leaves all other immediates in place. -/
theorem Rewrites.immediates (hr : Rewrites lifted p q) (hl : ∀ l, lifted l → l.Costly)
    (hp : p.Consistent) (hw : p.Writable) (h : p.Immediates lifted) : q.Immediates lifted :=
  (hr.preserves (fun r => r.Writable ∧ r.Immediates lifted)
    (fun hr hc hp => ⟨hr.writable hc hp.1, hr.immediates hl hc hp.1 hp.2⟩) hp ⟨hw, h⟩).2

/-- When a program that takes no integer in place has been lowered, all immediates are in place, and
the names that are written are those of the program. -/
theorem immediates_of_lowerSteps (pipeline : Pipeline) {built : Built} (hp : p.Valid)
    (hw : p.Writable) (hplain : p.Plain)
    (hsteps : LowerSteps (p.analyze.optimize pipeline) ([], p.analyze.optimize pipeline)
      (built, q)) :
    q.Writable ∧ q.Immediates lifted ∧ q.namedWrites.Perm p.namedWrites := by
  -- the first phase
  have hfirst := rewrites_optimize pipeline hp.analyze
  have hc := hfirst.consistent hp.analyze
  have hw₁ := hfirst.writable hp.analyze hw.analyze
  have hplain₁ := hfirst.preserves Plain (fun hr hc hp => hr.plain hc hp) hp.analyze
    hplain.analyze
  have hnames₁ := (hfirst.namedWrites hp.analyze).trans (namedWrites_analyze hp)
  -- lowering
  have hstart : (p.analyze.optimize pipeline).Immediates lifted :=
    fun x hx => immediate_of_not_isImmediate (hplain₁ x hx)
  exact hsteps.preserves
    (fun s => s.2.Writable ∧ s.2.Immediates lifted ∧ s.2.namedWrites.Perm p.namedWrites)
    (fun hst hl hp => ⟨hst.writable hl hp.1, hst.immediates hl hp.2.1,
      (List.Perm.of_eq (hst.namedWrites hl)).trans hp.2.2⟩) hc.toValid (.start hc.toValid)
    ⟨hw₁, hstart, hnames₁⟩

end Program

namespace Pipeline

/-- After so many passes a phase comes to lift literals into `slots` slots. -/
def LiftsAt (p : Pipeline) (passes : Nat) (slots : Int) : Prop :=
  ∃ s, p.schedule[passes]? = some s ∧ s.2.pass = .lift slots

/-- The literals that the second phase of a compilation lifts. -/
def LiftsLate (p : Pipeline) (w : Workspace) (l : Literal) : Prop :=
  ∃ passes slots v, p.LiftsAt passes slots ∧
    p.compileUpTo (.second passes) w = .ok (.ok ()) v ∧
    l ∈ v.store.program.chooseLiterals slots

/-- The standard pipeline lifts into all its slots. -/
theorem LiftsAt.eq_slots {rounds slots n : Int} {passes : Nat}
    (h : (standard rounds slots).LiftsAt passes n) : n = slots := by
  obtain ⟨s, hs, hn⟩ := h
  exact lift_of_mem_schedule (List.mem_of_getElem? hs) n hn

/-- Nothing is lifted late if the second phase never comes to lift with a slot to spare and a
literal that takes instructions to build. -/
theorem not_liftsLate {rounds slots : Int} (hslots : 0 ≤ slots) {w : Workspace}
    (h : ∀ passes v, (standard rounds slots).LiftsAt passes slots →
      (standard rounds slots).compileUpTo (.second passes) w = .ok (.ok ()) v →
      slots ≤ v.store.program.externalNames.length ∨ v.store.program.costlyLiterals = [])
    (l : Literal) : ¬ (standard rounds slots).LiftsLate w l := by
  rintro ⟨passes, n, v, hat, hrun, hl⟩
  obtain rfl := hat.eq_slots
  rw [chooseLiterals_eq_nil hslots (h passes v hat hrun)] at hl
  exact absurd hl (by simp)

end Pipeline

/-- A compilation that succeeds leaves the immediates in place, apart from what its second phase
lifts, and that is liftable. -/
theorem immediates_of_compiled {rounds slots : Int} (hslots : 0 ≤ slots) {p : Program}
    (hp : p.Valid) (hw : p.Writable) (hplain : p.Plain) {w w' : Workspace} (h : w.store.Holds p)
    (hrun : (Pipeline.standard rounds slots).compile w = .ok (.ok ()) w') :
    w'.store.program.Immediates ((Pipeline.standard rounds slots).LiftsLate w) ∧
      ∀ l, (Pipeline.standard rounds slots).LiftsLate w l → Liftable slots p.nameCount l := by
  obtain ⟨built, lowered, hsteps, hvalid, -, hend, hmoments⟩ :=
    exists_lowered_of_compile _ hp h hrun
  obtain ⟨hw₁, himm₁, hnames₁⟩ := immediates_of_lowerSteps _ hp hw hplain hsteps
  -- the program that a pass of the second phase meets
  have hmeets : ∀ passes v,
      (Pipeline.standard rounds slots).compileUpTo (.second passes) w = .ok (.ok ()) v →
      v.store.program = lowered.analyze.runPasses
        ((Pipeline.standard rounds slots).schedule.take passes) := by
    intro passes v hv
    obtain ⟨v', hv', hholds⟩ := hmoments passes
    obtain rfl : v' = v := (EStateM.Result.ok.inj (hv'.symm.trans hv)).2
    exact hholds.program_eq
  have hliftable : ∀ l, (Pipeline.standard rounds slots).LiftsLate w l →
      Liftable slots p.nameCount l := by
    rintro l ⟨passes, n, v, hat, hv, hl⟩
    obtain rfl := hat.eq_slots
    rw [hmeets passes v hv] at hl
    have hr := rewrites_passes (L := Literal.Costly)
      ((Pipeline.standard rounds n).schedule.take passes) hvalid.analyze
      fun k s _ => liftsIn_costly _ s.2.pass
    have hnames := (hr.namedWrites hvalid.analyze).trans
      ((namedWrites_analyze hvalid).trans hnames₁)
    rw [← nameCount_eq hnames]
    exact liftable_of_mem_chooseLiterals hslots hl
  refine ⟨?_, hliftable⟩
  have hsecond : Rewrites ((Pipeline.standard rounds slots).LiftsLate w) lowered.analyze
      (lowered.analyze.optimize (.standard rounds slots)) := by
    rw [optimize_eq_runPasses]
    refine rewrites_passes _ hvalid.analyze fun k s hs n hn l hl => ?_
    obtain ⟨v, hv, hholds⟩ := hmoments k
    exact ⟨k, n, v, ⟨s, hs, hn⟩, hv, hholds.program_eq ▸ hl⟩
  rw [hend.program_eq]
  exact hsecond.immediates (fun l hl => (hliftable l hl).1) hvalid.analyze hw₁.analyze
    himm₁.analyze

/-- Compiling a program that was read and takes no integer in place gives a result. If it succeeds,
then only literals that take instructions to build can have left their place as immediates, and none
has if the names that the program writes need all slots. It is what the second phase lifts that has
left its place. So none has either if whenever the second phase comes to lift, the names take all
slots or no literal takes instructions to build. -/
theorem immediates_of_compile {source : Source.Bytes} {w₀ w w₁ : Workspace}
    (hload : Source.load source w₀ = .ok (.ok ()) w) (hw : w₁.store = w.store)
    (hplain : w.store.program.Plain) (rounds : Int) {slots : Int} (hslots : 0 ≤ slots) :
    ∃ r w', (Pipeline.standard rounds slots).compile w₁ = .ok r w' ∧
      (r = .ok () → w'.store.program.Immediates Literal.Costly ∧
        (slots ≤ w.store.program.nameCount → w'.store.program.Immediates fun _ => False) ∧
        w'.store.program.Immediates ((Pipeline.standard rounds slots).LiftsLate w₁) ∧
        ((∀ passes v, (Pipeline.standard rounds slots).LiftsAt passes slots →
            (Pipeline.standard rounds slots).compileUpTo (.second passes) w₁ = .ok (.ok ()) v →
            slots ≤ v.store.program.externalNames.length ∨ v.store.program.costlyLiterals = []) →
          w'.store.program.Immediates fun _ => False)) := by
  obtain ⟨hfresh, r, w', hrun, -⟩ := compile_of_load hload hw (Pipeline.standard rounds slots)
  refine ⟨r, w', hrun, ?_⟩
  rintro rfl
  have hholds : w₁.store.Holds w.store.program := hw ▸ hfresh.holds
  obtain ⟨himm, hliftable⟩ :=
    immediates_of_compiled hslots hfresh.valid hfresh.writable hplain hholds hrun
  refine ⟨fun x hx => ?_, fun hfull x hx => ?_, himm, fun hnone x hx => ?_⟩
  · exact (himm x hx).mono (fun l hl => (hliftable l hl).1) fun _ hu => hu
  · exact (himm x hx).mono (fun l hl => absurd (hliftable l hl).2 (by omega)) fun _ hu => hu
  · exact (himm x hx).mono (fun l hl => Pipeline.not_liftsLate hslots hnone l hl) fun _ hu => hu

/-- Floats of one and of two steps, an integer in place and one that is moved, where three names
need all three slots. With 32 slots the first phase lifts what takes instructions to build, and the
second one finds no such literal. -/
theorem immediates_of_compiled_floats :
    let source := "T_a = mul_f(x, 2.5)\nz = add_f(T_a, 0.1)\nu = gt_i(T_a, 7)\nv = move(16384)\n"
    let output := "T_f_hi_0_1 = lu_imm(126566)\nT_f_0_1 = or_i_imm(T_f_hi_0_1, 3277)\n" ++
      "T_f_2_5 = lu_imm(131328)\nT_a = mul_f(x, T_f_2_5)\nz = add_f(T_a, T_f_0_1)\n" ++
      "u = gt_i_imm(T_a, 7)\nv = lu_imm(2)\n"
    let spacious := "T_a = mul_f(x, C_f_2_5)\nz = add_f(T_a, C_f_0_1)\nu = gt_i_imm(T_a, 7)\n" ++
      "v = move(C_i_16384)\n"
    ∃ w w' w'', Source.load source.toUTF8.toList {} = .ok (.ok ()) w ∧ w.store.program.Plain ∧
      w.store.program.nameCount = 3 ∧ (Pipeline.standard 2 3).compile w = .ok (.ok ()) w' ∧
      w'.store.program.listing = output ∧ w'.store.program.Immediates (fun _ => False) ∧
      (Pipeline.standard 1 32).compile w = .ok (.ok ()) w'' ∧
      w''.store.program.listing = spacious ∧ w''.store.program.Immediates fun _ => False := by
  intro source output spacious
  have hruns : ∃ w ∈ after? (Source.load source.toUTF8.toList) {}, w.store.program.Plain ∧
      w.store.program.nameCount = 3 ∧ (∃ w' ∈ after? (Pipeline.standard 2 3).compile w,
      w'.store.program.listing = output) ∧ (∃ w'' ∈ after? (Pipeline.standard 1 32).compile w,
      w''.store.program.listing = spacious) ∧
      ∀ passes < 7, ∀ v ∈ after? ((Pipeline.standard 1 32).compileUpTo (.second passes)) w,
        v.store.program.costlyLiterals = [] := by decide +kernel
  obtain ⟨w, hread, hplain, hcount, ⟨w', hdone, htext⟩, ⟨w'', hdone', htext'⟩, hnone⟩ := hruns
  obtain ⟨_, hload⟩ := exists_of_after? hread
  obtain ⟨_, hcompile⟩ := exists_of_after? hdone
  obtain ⟨_, hcompile'⟩ := exists_of_after? hdone'
  have hslots : (0 : Int) ≤ 3 := by decide
  have hslots' : (0 : Int) ≤ 32 := by decide
  obtain ⟨r, v, hrun, himm⟩ := immediates_of_compile hload rfl hplain 2 hslots
  obtain ⟨r', v', hrun', himm'⟩ := immediates_of_compile hload rfl hplain 1 hslots'
  rw [hcompile, EStateM.Result.ok.injEq] at hrun
  rw [hcompile', EStateM.Result.ok.injEq] at hrun'
  obtain ⟨rfl, rfl⟩ := hrun
  obtain ⟨rfl, rfl⟩ := hrun'
  refine ⟨w, w', w'', hload, hplain, hcount, hcompile, htext,
    (himm rfl).2.1 (by rw [hcount]; rfl), hcompile', htext', (himm' rfl).2.2.2 ?_⟩
  rintro passes v ⟨s, hs, -⟩ hv
  obtain ⟨hlt, -⟩ := List.getElem?_eq_some_iff.mp hs
  exact .inr (hnone passes hlt v (by simp [after?, hv]))

/-- With a name that only dead code reads, the second phase has a slot for the upper bits of a float
that the first phase had none for. -/
theorem immediate_lifted_into_constant :
    let source := "T_0 = foo(a)\nT_1 = foo(T_0)\nz = add_f(x, 2.5)\n"
    let output := "T_f_2_5 = lu_imm(C_i_131328)\nz = add_f(x, T_f_2_5)\n"
    ∃ w w', Source.load source.toUTF8.toList {} = .ok (.ok ()) w ∧ w.store.program.Plain ∧
      (Pipeline.standard 1 3).compile w = .ok (.ok ()) w' ∧ w'.store.program.listing = output ∧
      ¬ w'.store.program.Immediates fun _ => False := by
  intro source output
  have hruns : ∃ w ∈ after? (Source.load source.toUTF8.toList) {}, w.store.program.Plain ∧
      ∃ w' ∈ after? (Pipeline.standard 1 3).compile w, w'.store.program.listing = output ∧
      ⟨3⟩ ∈ w'.store.program.order ∧ (w'.store.program.inst ⟨3⟩).op = Opcode.luImm ∧
      (w'.store.program.inst ⟨3⟩).args = [.name "C_i_131328"] := by decide +kernel
  obtain ⟨w, hread, hplain, w', hdone, htext, hlive, hop, hargs⟩ := hruns
  obtain ⟨_, hload⟩ := exists_of_after? hread
  obtain ⟨_, hcompile⟩ := exists_of_after? hdone
  refine ⟨w, w', hload, hplain, hcompile, htext, fun himm => ?_⟩
  obtain ⟨v, n, hv, -, hcarries⟩ := (himm ⟨3⟩ hlive).upper hop
  rw [hargs, hcarries.eq_literal] at hv
  simp at hv

end Straightline
