import Straightline.Proofs.Phases
import Straightline.Proofs.Tame

/-!
# Programs that can be written

In a writable program destinations and opcodes are identifiers, no instruction lacks operands, and
operands are floats, integers below 2³¹, references and names that are not temporaries. Programs
that were read are writable (`Store.Fresh.writable`), and a compilation keeps them so
(`Program.Compiled.writable`): every name that the passes or lowering make up is an identifier, and
every integer they make up is a field of a literal.

Keys tell the computations of a writable program apart (`Program.Writable.eq_of_key_eq`).
-/

set_option autoImplicit false

namespace Straightline

/-! ## Names -/

namespace Source

/-- The name of a float that lowering builds is a name of the source. -/
theorem isName_floatName (l : Literal) : IsName (floatName l) :=
  isName_append_mangled (isName_of_isIdent (by decide)) l

/-- The name of the upper bits of a float is a name of the source. -/
theorem isName_floatHighName (l : Literal) : IsName (floatHighName l) :=
  isName_append_mangled (isName_of_isIdent (by decide)) l

end Source

open Source

/-- The name of a constant is not that of a temporary. -/
theorem isTemp_constantName (l : Literal) : isTemp l.constantName = false := by
  by_contra h
  have hconstant := Program.isConstant_of_isTemp (Bool.eq_true_of_not_eq_false h)
  rw [l.isConstant_constantName] at hconstant
  exact absurd hconstant (by simp)

/-! ## Writable instructions -/

/-- An operand that a text can hold, or a float. -/
inductive Value.Writable : Value → Prop where
  | int {n : Nat} (h : n < 2 ^ 31) : Writable (.literal (.ofInt n))
  | float (bits : UInt32) : Writable (.literal (.ofFloatBits bits))
  | ref (id : InstId) : Writable (.ref id)
  | name {s : String} (hs : IsName s) (ht : isTemp s = false) : Writable (.name s)

/-- An instruction that a text can hold, floats apart. -/
structure Inst.Writable (i : Inst) : Prop where
  dst : IsName i.dst
  op : IsName i.op
  nonempty : i.args ≠ []
  operands : ∀ v ∈ i.args, v.Writable

/-- An instruction that can be written has a key that can be read. -/
theorem Inst.Writable.legible {i : Inst} (h : i.Writable) : i.Legible := by
  refine ⟨isWord_of_isName h.op, fun v hv => ?_⟩
  cases h.operands v hv with
  | int _ => exact .literal _
  | float _ => exact .literal _
  | ref r => exact .ref r
  | name hs _ => exact .name (isWord_of_isName hs)

/-- A program whose live instructions can be written. -/
def Program.Writable (p : Program) : Prop := ∀ id ∈ p.order, (p.inst id).Writable

/-- The upper field of a literal has 19 bits. -/
theorem Literal.toNat_high_lt (l : Literal) : l.high.toNat < 2 ^ 19 := by
  have hbits := l.bits.toNat_lt
  unfold Literal.high
  rw [UInt32.toNat_shiftRight, Nat.shiftRight_eq_div_pow]
  simp only [UInt32.reduceToNat, Nat.reduceMod, Nat.reducePow]
  omega

/-- The low field of a literal has 13 bits. -/
theorem Literal.toNat_low_lt (l : Literal) : l.low.toNat < 2 ^ 13 := by
  unfold Literal.low
  rw [UInt32.toNat_and]
  exact Nat.lt_of_le_of_lt Nat.and_le_right (by decide)

/-- Fields of 19 bits can be written as integers. -/
theorem writable_immediate {field : UInt32} (h : field.toNat < 2 ^ 19) :
    (immediate field).Writable :=
  .int (by omega)

/-- A literal that can be written is canonical. -/
theorem canonical_of_writable {l : Literal} (h : (Value.literal l).Writable) : l.Canonical := by
  cases h with
  | int _ => exact fun hk => absurd hk (by simp [Literal.ofInt])
  | float bits => exact Literal.canonical_ofFloatBits bits

/-- A program that was read can be written. -/
theorem Store.Fresh.writable {s : Store} {p : Program} (h : s.Fresh p) : p.Writable := by
  intro id hid
  obtain ⟨temps, hi⟩ := h.statement id hid
  refine ⟨hi.dst, hi.op, hi.nonempty, fun v hv => ?_⟩
  cases hi.args v hv with
  | literal hl =>
      cases written_of_parse hl with
      | int hn => exact .int hn
      | float hb => exact .float _
  | name hs ht => exact .name hs ht
  | ref _ _ _ => exact .ref _

namespace Program

variable {L : Literal → Prop} {p q : Program}

/-- In a writable program, equal keys mean equal computations. -/
theorem Writable.eq_of_key_eq (h : p.Writable) {x y : InstId} (hx : x ∈ p.order)
    (hy : y ∈ p.order) (hkey : (p.inst x).key = (p.inst y).key) :
    (p.inst x).op = (p.inst y).op ∧ (p.inst x).args = (p.inst y).args :=
  (h x hx).legible.eq_of_key_eq (h y hy).legible hkey

/-! ## Compiling keeps programs writable -/

/-- An analysis changes nothing that is written. -/
theorem Writable.analyze (h : p.Writable) : p.analyze.Writable := by
  intro x hx
  rw [order_analyze] at hx
  rw [inst_analyze hx]
  exact ⟨(h x hx).dst, (h x hx).op, (h x hx).nonempty, (h x hx).operands⟩

/-- What a step takes over from the operands of a writable program can be written. -/
theorem writable_of_derived (h : p.Writable) {x : InstId} {v : Value} (hv : p.Derived x v) :
    v.Writable := by
  cases hv with
  | kept hread =>
      obtain ⟨y, hy, -, hv⟩ := hread
      exact (h y hy).operands v hv
  | ref r => exact .ref r
  | lifted _ => exact .name (isName_constantName _) (isTemp_constantName _)
  | inverted _ => exact .float _

/-- A step of a pass keeps a program writable. -/
theorem Rewrite.writable (hr : Rewrite L p q) (hp : p.Consistent) (h : p.Writable) :
    q.Writable := by
  obtain ⟨f, hf⟩ := hr.origins hp
  intro x hx
  have hold := h x (hr.mem_order hx)
  have hshape := hr.reshaped hp hx
  refine ⟨?_, ?_, ?_, fun v hv => writable_of_derived h (hr.derived hp hx hv)⟩
  · rw [hf.dst x hx]
    exact (h _ (hf.mem x hx)).dst
  · cases hshape with
    | same hop _ => exact hop ▸ hold.op
    | changed _ hop _ => exact isName_of_introduced hop
    | moved _ hop _ => exact hop ▸ isName_move
  · cases hshape with
    | same _ hlen =>
        rw [← List.length_pos_iff, hlen]
        exact List.length_pos_iff.mpr hold.nonempty
    | changed _ _ hne => exact hne
    | moved _ _ hone =>
        obtain ⟨v, hv⟩ := hone
        simp [hv]

/-- Passes keep a program writable. -/
theorem Rewrites.writable (hr : Rewrites L p q) (hp : p.Consistent) (h : p.Writable) :
    q.Writable :=
  hr.preserves Program.Writable (fun hstep hc hw => hstep.writable hc hw) hp h

end Program

open Program

/-- The instruction that sets upper bits can be written. -/
theorem writable_highInst {dst : String} (hdst : IsName dst) (l : Literal) :
    (highInst dst l).Writable := by
  refine ⟨hdst, isName_luImm, by simp [highInst], fun v hv => ?_⟩
  obtain rfl : v = immediate l.high := by simpa [highInst] using hv
  exact writable_immediate l.toNat_high_lt

/-- The instruction that adds a low field can be written. -/
theorem writable_lowInst (l : Literal) (r : InstId) :
    (lowInst l [.ref r, immediate l.low]).Writable := by
  refine ⟨isName_floatName l, isName_orIImm, by simp [lowInst], fun v hv => ?_⟩
  have hv' : v = .ref r ∨ v = immediate l.low := by simpa [lowInst] using hv
  rcases hv' with rfl | rfl
  · exact .ref r
  · exact writable_immediate (Nat.lt_trans l.toNat_low_lt (by decide))

/-- An instruction whose integer is encoded can be written if it could be before. -/
theorem writable_of_encodeInteger {l : Literal} {i i' : Inst} (hi : encodeInteger l i = .ok i')
    (h : i.Writable) : i'.Writable := by
  rcases encodeInteger_eq_ok hi with ⟨-, -, rfl⟩ | ⟨-, rfl⟩ | ⟨hop, rfl⟩
  · refine ⟨h.dst, isName_luImm, by simp, fun v hv => ?_⟩
    rw [List.mem_singleton.mp hv]
    exact writable_immediate l.toNat_high_lt
  · exact h
  · exact ⟨h.dst, isName_immediateForm hop, h.nonempty, h.operands⟩

/-- A step of lowering keeps a program writable. -/
theorem LowerStep.writable {source : Program} {s t : Built × Program} (hst : LowerStep source s t)
    (hl : Lowering source s) (h : s.2.Writable) : t.2.Writable := by
  apply hst.forall_inst Inst.Writable hl
  case hupper => exact fun l _ => writable_highInst (isName_floatName l) l
  case hhigh => exact fun l _ => writable_highInst (isName_floatHighName l) l
  case hlow => exact fun l _ _ => writable_lowInst l _
  case hplace =>
    intro i position l r _ _ hi
    refine ⟨hi.dst, hi.op, by simpa using hi.nonempty, fun v hv => ?_⟩
    rcases List.mem_or_eq_of_mem_set hv with hv | rfl
    · exact hi.operands v hv
    · exact .ref r
  case hencode => exact fun l i i' _ _ hcode hi => writable_of_encodeInteger hcode hi
  case h => exact h

/-- A compilation keeps a program writable. -/
theorem Program.Compiled.writable {pipeline : Pipeline} {p q : Program} (h : Compiled pipeline p q)
    (hp : p.Writable) : q.Writable :=
  h.preserves Program.Writable (fun _ hp => hp.analyze) (fun hr hc hp => hr.writable hc hp)
    (fun hst hl hp => hst.writable hl hp) hp

end Straightline
