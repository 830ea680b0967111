import Straightline.Proofs.Tame

/-!
# Steps keep models

An interpretation is lawful if its opcodes satisfy the identities that the passes and lowering use,
and nothing more is asked of it. A model of a tame program is then also a model of the program after
any step of a pass (`Program.Rewrite.models`), provided the constants hold their literals. Lowering
adds instructions, so the model has to be extended by their values; the names stay as they are
(`LowerStep.models`).
-/

set_option autoImplicit false

namespace Straightline

namespace Interpretation

variable {V : Type*}

/-- The identities that compilation relies on. -/
structure Lawful (I : Interpretation V) : Prop where
  move : ∀ x, I.op Opcode.move [x] = x
  unitProduct : ∀ x, I.op Opcode.mulF [I.literal .floatOne, x] = x
  unitProductSum : ∀ a b, I.op Opcode.mulAddF [a, I.literal .floatOne, b] = I.op Opcode.addF [a, b]
  reciprocal : ∀ x k, I.op Opcode.divF [x, I.literal ⟨.float, k⟩] =
    I.op Opcode.mulF [x, I.literal (.ofFloatBits (Binary32.reciprocal k))]
  mulAdd : ∀ a b c, I.op Opcode.mulAddF [a, b, c] = I.op Opcode.addF [I.op Opcode.mulF [a, b], c]
  addMul : ∀ a b c, I.op Opcode.mulAddF [a, b, c] = I.op Opcode.addF [c, I.op Opcode.mulF [a, b]]
  mulSub : ∀ a b c, I.op Opcode.mulSubF [a, b, c] = I.op Opcode.subF [I.op Opcode.mulF [a, b], c]
  gtImmediate : ∀ args, I.op (Opcode.gtI ++ Opcode.immediateMark) args = I.op Opcode.gtI args
  subImmediate : ∀ args, I.op (Opcode.subI ++ Opcode.immediateMark) args = I.op Opcode.subI args
  upper : ∀ l : Literal, l.low = 0 →
    I.op Opcode.luImm [I.literal (.ofInt l.high.toNat)] = I.literal l
  both : ∀ l : Literal, I.op Opcode.orIImm [I.op Opcode.luImm [I.literal (.ofInt l.high.toNat)],
    I.literal (.ofInt l.low.toNat)] = I.literal l

/-- The identities that the fusion of products relies on. -/
structure Fuses (I : Interpretation V) : Prop where
  mulAdd : ∀ a b c, I.op Opcode.mulAddF [a, b, c] = I.op Opcode.addF [I.op Opcode.mulF [a, b], c]
  addMul : ∀ a b c, I.op Opcode.mulAddF [a, b, c] = I.op Opcode.addF [c, I.op Opcode.mulF [a, b]]
  mulSub : ∀ a b c, I.op Opcode.mulSubF [a, b, c] = I.op Opcode.subF [I.op Opcode.mulF [a, b], c]

/-- A lawful interpretation has the identities of fusion. -/
theorem Lawful.fuses {I : Interpretation V} (h : I.Lawful) : I.Fuses :=
  ⟨h.mulAdd, h.addMul, h.mulSub⟩

/-- The constants hold the values of their literals. -/
def HoldsConstants (I : Interpretation V) (names : String → V) : Prop :=
  ∀ l : Literal, l.Canonical → names l.constantName = I.literal l

variable {I : Interpretation V} {names : String → V} {m : State V}

/-- Replacing an operand by one of the same value does not change the result. -/
theorem result_replace (i : Inst) {old new : Value} (h : I.operand m old = I.operand m new) :
    I.result m (i.replace old new) = I.result m i := by
  unfold result Inst.replace
  dsimp only
  rw [List.map_map]
  congr 1
  apply List.map_congr_left
  intro v _
  show I.operand m (if v = old then new else v) = I.operand m v
  split
  · rename_i hv
    rw [hv, h]
  · rfl

/-- A model stays one if the instructions that stay keep their destinations and results, and only
temporaries go. -/
theorem Models.of_same {p q : Program} (hm : I.Models names p m)
    (hsub : ∀ x ∈ q.order, x ∈ p.order)
    (hgone : ∀ x ∈ p.order, x ∉ q.order → (p.inst x).isTemp = true)
    (hdst : ∀ x ∈ q.order, (q.inst x).dst = (p.inst x).dst)
    (hresult : ∀ x ∈ q.order, I.result m (q.inst x) = I.result m (p.inst x)) :
    I.Models names q m := by
  have htemp : ∀ x ∈ q.order, (q.inst x).isTemp = (p.inst x).isTemp := by
    intro x hx
    unfold Inst.isTemp
    rw [hdst x hx]
  refine ⟨fun x hx => ?_, ?_, fun n hn => hm.kept n ?_⟩
  · rw [hresult x hx]
    exact hm.value x (hsub x hx)
  · rintro x n ⟨hx, ht, hd⟩
    exact hm.written ⟨hsub x hx, (htemp x hx) ▸ ht, (hdst x hx) ▸ hd⟩
  · rintro x ⟨hx, ht, hd⟩
    by_cases hxq : x ∈ q.order
    · exact hn x ⟨hxq, by rw [htemp x hxq]; exact ht, by rw [hdst x hxq]; exact hd⟩
    · rw [hgone x hx hxq] at ht
      exact absurd ht (by simp)

/-- An analysis changes use-sets only, which have no part in what a program means. -/
theorem Models.analyze {p : Program} (hm : I.Models names p m) : I.Models names p.analyze m := by
  have hsame : ∀ x ∈ p.analyze.order, x ∈ p.order := fun x hx => by
    rwa [Program.order_analyze] at hx
  refine hm.of_same hsame (fun x hx hxq => ?_) (fun x hx => ?_) (fun x hx => ?_)
  · rw [Program.order_analyze] at hxq
    exact absurd hx hxq
  · rw [Program.inst_analyze (hsame x hx)]
  · rw [Program.inst_analyze (hsame x hx)]
    rfl

/-- A constant has the value of its literal, since nothing writes it. -/
theorem Models.constant {p : Program} (hm : I.Models names p m) (h : p.Tame)
    (hc : I.HoldsConstants names) {l : Literal} (hl : l.Canonical) :
    m.names l.constantName = I.literal l := by
  rw [hm.kept, hc l hl]
  rintro x ⟨hx, -, hd⟩
  have hreserved := h.reserved x hx
  rw [hd, l.isConstant_constantName] at hreserved
  exact absurd hreserved (by simp)

/-! ## The steps of the passes -/

/-- An algebraic rule keeps the result of an instruction. -/
theorem result_of_rule (hI : I.Lawful) {rule : Rule} (hr : rule.IsIdentity) {i i' : Inst}
    {e : Event} (h : rule i = some (i', e)) : I.result m i' = I.result m i := by
  rcases hr with rfl | rfl | rfl
  · obtain ⟨x, hop, hargs, rfl⟩ := unitProduct_eq_some h
    simp only [result, hop, hargs, List.map_cons, List.map_nil]
    rw [hI.move]
    exact (hI.unitProduct _).symm
  · obtain ⟨a, b, hop, hargs, rfl⟩ := unitProductSum_eq_some h
    simp only [result, hop, hargs, List.map_cons, List.map_nil]
    exact (hI.unitProductSum _ _).symm
  · obtain ⟨x, k, hop, hargs, rfl⟩ := reciprocal_eq_some h
    simp only [result, hop, hargs, List.map_cons, List.map_nil]
    exact (hI.reciprocal _ k).symm

/-- A product merged into its consumer. -/
theorem result_of_fuse (hI : I.Fuses) {id : InstId} {a b : Value} {i fused : Inst}
    (hf : Fusion.fuse? id a b i = some fused)
    (hid : m.values id = I.op Opcode.mulF [I.operand m a, I.operand m b]) :
    I.result m fused = I.result m i := by
  have href : I.operand m (.ref id) = m.values id := rfl
  obtain ⟨y, ⟨hop, hargs | hargs, rfl⟩ | ⟨hop, hargs, rfl⟩⟩ := fuse?_eq_some hf
  · simp only [result, hop, hargs, List.map_cons, List.map_nil, href, hid]
    exact hI.mulAdd _ _ _
  · simp only [result, hop, hargs, List.map_cons, List.map_nil, href, hid]
    exact hI.addMul _ _ _
  · simp only [result, hop, hargs, List.map_cons, List.map_nil, href, hid]
    exact hI.mulSub _ _ _

/-- A constant in place of its literal has the same value. -/
theorem operand_liftOperand {p : Program} (hm : I.Models names p m) (h : p.Tame)
    (hc : I.HoldsConstants names) (chosen : List Literal) {v : Value} (hv : v.Tame) :
    I.operand m (liftOperand chosen v) = I.operand m v := by
  cases hv with
  | @literal l hl =>
      unfold liftOperand
      dsimp only
      split
      · exact hm.constant h hc hl
      · rfl
  | ref r => rfl
  | name _ => rfl

end Interpretation

namespace Program

variable {V : Type*} {I : Interpretation V} {names : String → V} {m : State V} {p q : Program}
  {L : Literal → Prop}

open Interpretation

/-- The producer takes over the destination of a move that has its value. -/
theorem models_takeOver (hI : I.Lawful) (hp : p.Consistent) (hm : I.Models names p m)
    {id user : InstId} (hid : id ∈ p.order) (hu : user ∈ p.order) (ht : (p.inst id).isTemp = true)
    (hop : (p.inst user).op = Opcode.move) (hargs : (p.inst user).args = [.ref id]) :
    I.Models names (p.takeOver id user (p.inst user).dst (p.inst user).uses) m := by
  have hne : id ≠ user := (hp.refs user hu id (by simp [hargs])).1.ne hp.nodup
  have hsame : m.values user = m.values id := by
    rw [hm.value user hu, result, hop, hargs]
    exact hI.move _
  have hoperand : I.operand m (.ref user) = I.operand m (.ref id) := hsame
  have hmem : ∀ {x}, x ∈ (p.takeOver id user (p.inst user).dst (p.inst user).uses).order ↔
      x ≠ user ∧ x ∈ p.order := hp.nodup.mem_erase_iff
  have hself := inst_takeOver_self hp hu hne hid (p.inst user).dst
  have hother : ∀ x, x ≠ user → x ∈ p.order → x ≠ id → _ := fun x hxu hx hxid =>
    inst_takeOver_of_ne hp hu hxu hx hxid (p.inst user).dst
  refine ⟨fun x hx => ?_, ?_, fun n hn => hm.kept n ?_⟩
  · obtain ⟨hxu, hxo⟩ := hmem.mp hx
    rw [hm.value x hxo]
    by_cases hxid : x = id
    · subst hxid
      rw [hself]
      exact (result_replace (p.inst x) hoperand).symm
    · rw [hother x hxu hxo hxid]
      exact (result_replace (p.inst x) hoperand).symm
  · rintro x n ⟨hx, htemp, hd⟩
    obtain ⟨hxu, hxo⟩ := hmem.mp hx
    by_cases hxid : x = id
    · subst hxid
      rw [hself] at htemp hd
      rw [← hsame]
      exact hm.written ⟨hu, htemp, hd⟩
    · rw [hother x hxu hxo hxid] at htemp hd
      exact hm.written ⟨hxo, htemp, hd⟩
  · rintro x ⟨hx, htemp, hd⟩
    by_cases hxu : x = user
    · subst hxu
      refine hn id ⟨hmem.mpr ⟨hne, hid⟩, ?_, ?_⟩
      · rw [hself]
        exact htemp
      · rw [hself]
        exact hd
    · have hxid : x ≠ id := by
        rintro rfl
        rw [ht] at htemp
        exact absurd htemp (by simp)
      refine hn x ⟨hmem.mpr ⟨hxu, hx⟩, ?_, ?_⟩
      · rw [hother x hxu hx hxid]
        exact htemp
      · rw [hother x hxu hx hxid]
        exact hd

/-- Every step of a pass keeps the models of a tame program. -/
theorem Rewrite.models (hr : Rewrite L p q) (hI : I.Lawful) (hp : p.Consistent) (h : p.Tame)
    (hc : I.HoldsConstants names) (hm : I.Models names p m) : I.Models names q m := by
  have hsub : ∀ x ∈ q.order, x ∈ p.order := fun x hx => hr.mem_order hx
  -- what goes is the one instruction that was taken out
  have hgone : ∀ z, q.order = p.order.erase z → (p.inst z).isTemp = true →
      ∀ x ∈ p.order, x ∉ q.order → (p.inst x).isTemp = true := by
    intro z hz ht x hx hxq
    by_cases hxz : x = z
    · rw [hxz]
      exact ht
    · rw [hz, hp.nodup.mem_erase_iff] at hxq
      exact absurd ⟨hxz, hx⟩ hxq
  cases hr with
  | analyze => exact hm.analyze
  | @fuse id user a b fused hid hu hc hf =>
      obtain ⟨hop, hargs, -⟩ := candidate?_eq_some hc
      have ht := (hp.precedes_of_candidate hid hu hc).2
      have hvalue : m.values id = I.op Opcode.mulF [I.operand m a, I.operand m b] := by
        rw [hm.value id hid, result, hop, hargs]
        rfl
      have hfused := result_of_fuse hI.fuses hf hvalue
      refine hm.of_same hsub (hgone id (order_fuse _ _ _ _ _ _) ht) (fun x _ => ?_) (fun x _ => ?_)
      · rw [inst_fuse]
        split
        · rename_i hx
          rw [hx]
          exact (dst_uses_of_fuse? hf).1
        · rfl
      · rw [inst_fuse]
        split
        · rename_i hx
          rw [hx]
          exact hfused
        · rfl
  | @simplify id rule i e hi hid hrule =>
      refine hm.of_same hsub (fun x hx hxq => absurd hx hxq) (fun x _ => ?_) (fun x _ => ?_)
      · rw [inst_modify]
        split
        · rename_i hx
          rw [hx]
          exact (dst_uses_of_rule hi hrule).1
        · rfl
      · rw [inst_modify]
        split
        · rename_i hx
          rw [hx]
          exact result_of_rule hI hi hrule
        · rfl
  | @drop id hid hd =>
      have ht : (p.inst id).isTemp = true := (Bool.and_eq_true_iff.mp hd).1
      exact hm.of_same hsub (hgone id rfl ht) (fun x _ => rfl) (fun x _ => rfl)
  | @rename id user dst uses hid hu hs hmove =>
      obtain ⟨-, ht⟩ := soleUser?_eq_some hs
      obtain ⟨hop, hargs, rfl, rfl⟩ := moveFrom?_eq_some hmove
      exact models_takeOver hI hp hm hid hu ht hop hargs
  | @forward id source uses hid hf =>
      obtain ⟨hop, ht, hargs, rfl⟩ := forwardable?_eq_some hf
      have hvalue : I.operand m (.ref id) = I.operand m source := by
        show m.values id = _
        rw [hm.value id hid, result, hop, hargs]
        exact hI.move _
      refine hm.of_same hsub (hgone id (by simp [bypass]) ht) (fun x hx => ?_) (fun x hx => ?_)
      · rw [inst_bypass hp hid source (hsub x hx)]
        rfl
      · rw [inst_bypass hp hid source (hsub x hx)]
        exact result_replace (p.inst x) hvalue
  | @merge first id hpre hkey hf ht =>
      obtain ⟨hop, hargs⟩ := h.eq_of_key_eq hpre.left_mem hpre.right_mem hkey
      have hvalue : I.operand m (.ref id) = I.operand m (.ref first) := by
        show m.values id = m.values first
        rw [hm.value id hpre.right_mem, hm.value first hpre.left_mem, result, result, hop, hargs]
      refine hm.of_same hsub (hgone id rfl ht) (fun x hx => ?_) (fun x hx => ?_)
      · rw [inst_merge hp first hpre.right_mem (hsub x hx)]
        rfl
      · rw [inst_merge hp first hpre.right_mem (hsub x hx)]
        exact result_replace (p.inst x) hvalue
  | @lift chosen _ id hid =>
      refine hm.of_same hsub (fun x hx hxq => absurd hx hxq) (fun x _ => ?_) (fun x _ => ?_)
      · rw [liftOperands, inst_modify]
        split
        · rename_i hx
          rw [hx]
        · rfl
      · rw [liftOperands, inst_modify]
        split
        · rename_i hx
          rw [hx]
          unfold result
          dsimp only
          rw [List.map_map]
          congr 1
          apply List.map_congr_left
          exact fun v hv => operand_liftOperand hm h hc chosen (h.operands id hid v hv)
        · rfl

end Program

/-! ## The steps of lowering -/

section Lowering

variable {V : Type*} {I : Interpretation V} {names : String → V} {m : State V}

open Interpretation Program

/-- The instruction that builds a literal has its value. -/
theorem Program.Builds.value {p : Program} {l : Literal} {id : InstId} (hb : p.Builds l id)
    (hI : I.Lawful) (hp : p.Valid) (hm : I.Models names p m) (hid : id ∈ p.order) :
    m.values id = I.literal l := by
  rw [hm.value id hid]
  cases hb with
  | upper hlow hi =>
      rw [hi]
      exact hI.upper l hlow
  | both hlow hh hi =>
      have hpre := (hp.refs id hid id.succ (by simp [hi, lowInst])).1
      have hhigh : m.values id.succ = I.op Opcode.luImm [I.literal (.ofInt l.high.toNat)] := by
        rw [hm.value id.succ hpre.left_mem, hh]
        rfl
      rw [hi]
      show I.op Opcode.orIImm [m.values id.succ, I.literal (.ofInt l.low.toNat)] = I.literal l
      rw [hhigh]
      exact hI.both l

/-- The model of a program, with values for the instructions that build a literal. -/
def withFloat (I : Interpretation V) (m : State V) (id : InstId) (l : Literal) : State V where
  values := Function.update (Function.update m.values id (I.literal l)) id.succ
    (I.op Opcode.luImm [I.literal (.ofInt l.high.toNat)])
  names := m.names

theorem values_withFloat_of_known {p : Program} {x : InstId} (hx : p.Known x) (l : Literal) :
    (withFloat I m p.nextId l).values x = m.values x := by
  have hne : x ≠ p.nextId := ne_nextId_of_known hx
  have hne' : x ≠ p.nextId.succ := by
    rintro rfl
    simp only [Known, InstId.succ, nextId] at hx
    omega
  unfold withFloat
  dsimp only
  rw [Function.update_of_ne hne', Function.update_of_ne hne]

theorem values_withFloat_self (p : Program) (l : Literal) :
    (withFloat I m p.nextId l).values p.nextId = I.literal l := by
  unfold withFloat
  dsimp only
  rw [Function.update_of_ne (succ_ne _).symm, Function.update_self]

theorem values_withFloat_succ (id : InstId) (l : Literal) : (withFloat I m id l).values id.succ =
    I.op Opcode.luImm [I.literal (.ofInt l.high.toNat)] :=
  Function.update_self _ _ _

/-- The instructions that build a float have the values they should have, and all others keep
theirs. -/
theorem models_buildFloat (hI : I.Lawful) {p : Program} (hp : p.Valid) (hm : I.Models names p m)
    (l : Literal) : I.Models names (p.buildFloat l).2 (withFloat I m p.nextId l) := by
  have hinst : ∀ x ∈ p.order, (p.buildFloat l).2.inst x = p.inst x := fun x hx =>
    inst_buildFloat_of_known l (hp.known x hx)
  have hvalue : ∀ x ∈ p.order, (withFloat I m p.nextId l).values x = m.values x := fun x hx =>
    values_withFloat_of_known (hp.known x hx) l
  have hdef : ∀ {x n}, (p.buildFloat l).2.Defines x n → p.Defines x n := by
    rintro x n ⟨hx, ht, hd⟩
    rcases mem_order_buildFloat l hx with hx | ⟨htemp, -⟩
    · rw [hinst x hx] at ht hd
      exact ⟨hx, ht, hd⟩
    · rw [htemp] at ht
      exact absurd ht (by simp)
  refine ⟨fun x hx => ?_, fun {x n} hd => ?_, fun n hn => hm.kept n fun x hd => ?_⟩
  · rcases mem_order_buildFloat l hx with hx | ⟨-, rfl | ⟨rfl, hh⟩⟩
    · -- an old instruction reads old values
      rw [hvalue x hx, hinst x hx, hm.value x hx]
      apply result_congr
      intro v hv
      cases v with
      | literal _ => rfl
      | ref r => exact (hvalue r (hp.refs x hx r hv).1.left_mem).symm
      | name _ => rfl
    · rw [values_withFloat_self]
      rcases builds_buildFloat (p := p) l with ⟨hlow, hi⟩ | ⟨-, -, hi⟩
      · rw [hi]
        exact (hI.upper l hlow).symm
      · rw [hi]
        show _ = I.op Opcode.orIImm [(withFloat I m p.nextId l).values p.nextId.succ,
          I.literal (.ofInt l.low.toNat)]
        rw [values_withFloat_succ]
        exact (hI.both l).symm
    · rw [values_withFloat_succ, hh]
      rfl
  · have hd' := hdef hd
    rw [hvalue x hd'.1]
    exact hm.written hd'
  · obtain ⟨hx, ht, hdst⟩ := hd
    obtain ⟨front, ho, -, -⟩ := order_buildFloat (p := p) l
    refine hn x ⟨by rw [ho]; simp [hx], ?_, ?_⟩
    · rw [hinst x hx]
      exact ht
    · rw [hinst x hx]
      exact hdst

/-- Changing an instruction without changing its result. -/
theorem models_modify {p : Program} (hm : I.Models names p m) {id : InstId} {f : Inst → Inst}
    (hdst : (f (p.inst id)).dst = (p.inst id).dst)
    (hresult : I.result m (f (p.inst id)) = I.result m (p.inst id)) :
    I.Models names (p.modify id f) m := by
  refine hm.of_same (fun x hx => hx) (fun x hx hxq => absurd hx hxq) (fun x _ => ?_) (fun x _ => ?_)
  · rw [inst_modify]
    split
    · rename_i hx
      rw [hx]
      exact hdst
    · rfl
  · rw [inst_modify]
    split
    · rename_i hx
      rw [hx]
      exact hresult
    · rfl

/-- An operand in place of another one with the same value keeps the result. -/
theorem result_set {i : Inst} {position : Nat} {v w : Value}
    (hv : i.args[position]? = some v) (h : I.operand m w = I.operand m v) :
    I.result m { i with args := i.args.set position w } = I.result m i := by
  unfold result
  dsimp only
  congr 1
  apply List.ext_getElem?
  intro k
  rw [List.getElem?_map, List.getElem?_map, List.getElem?_set]
  split
  · rename_i hk
    subst hk
    split
    · rw [hv, Option.map_some, Option.map_some, h]
    · rename_i hlen
      rw [List.getElem?_eq_none (by omega)]
  · rfl

/-- An encoded integer keeps the result of its instruction. -/
theorem result_of_encodeInteger (hI : I.Lawful) {l : Literal} {i i' : Inst}
    (h : encodeInteger l i = .ok i') (hmove : i.op = Opcode.move → i.args = [.literal l]) :
    I.result m i' = I.result m i := by
  rcases encodeInteger_eq_ok h with ⟨hop, hlow, rfl⟩ | ⟨-, rfl⟩ | ⟨hop | hop, rfl⟩
  · simp only [result, hop, hmove hop, List.map_cons, List.map_nil]
    rw [hI.move]
    exact hI.upper l hlow
  · rfl
  · simp only [result, hop]
    exact hI.gtImmediate _
  · simp only [result, hop]
    exact hI.subImmediate _

/-- Every step of lowering keeps the names of a model. -/
theorem LowerStep.models {source : Program} {s t : Built × Program} (hst : LowerStep source s t)
    (hI : I.Lawful) (hl : Lowering source s) (h : s.2.Tame) (hm : I.Models names s.2 m) :
    ∃ m', I.Models names t.2 m' ∧ m'.names = m.names := by
  cases hst with
  | @build built p id l _ _ _ _ => exact ⟨_, models_buildFloat hI hl.valid hm l, rfl⟩
  | @place built p id r position l hid ha hk hr =>
      obtain ⟨hb, hlive, -⟩ := hl.built _ hr
      have hvalue : I.operand m (.ref r) = I.operand m (.literal l) :=
        hb.value hI hl.valid hm hlive
      refine ⟨m, ?_, rfl⟩
      dsimp only at hm ⊢
      apply models_modify hm
      case hdst => rfl
      case hresult => exact result_set ha hvalue
  | @encode built p id l i hid ha hk hi =>
      have hid' : id ∈ p.order := hl.order.subset hid
      obtain ⟨hdst, -, -⟩ := of_encodeInteger hi
      have hmove : (p.inst id).op = Opcode.move → (p.inst id).args = [.literal l] := by
        intro hop
        obtain ⟨v, hv⟩ := h.moves id hid' hop
        rw [hv] at ha ⊢
        rw [List.mem_singleton.mp ha]
      refine ⟨m, ?_, rfl⟩
      dsimp only at hm ⊢
      exact models_modify hm hdst (result_of_encodeInteger hI hi hmove)

end Lowering

end Straightline
