import Straightline.Proofs.Constants
import Straightline.Proofs.Lowered
import Straightline.Proofs.Meaning
import Straightline.Proofs.Rewrites

/-!
# Tame programs

What the passes rely on beside references: each name is written once and read afterwards, a move has
one operand, nothing writes a constant, literals are canonical, and opcodes and names are words. A
program with these properties is tame. Every step of a pass keeps a program tame
(`Program.Rewrite.tame`), and so does every step of lowering (`LowerStep.tame`).

A step moves what is written and what is read in one direction each: a definition may come earlier,
when a producer takes over the destination of a move, and an operand may be read later, when a
consumer takes over the operands of its producer. Neither can put a read before its definition.
-/

set_option autoImplicit false

namespace Straightline

/-- An operand as it stands in tame programs. -/
inductive Value.Tame : Value → Prop where
  | literal {l : Literal} (h : l.Canonical) : Tame (.literal l)
  | ref (id : InstId) : Tame (.ref id)
  | name {s : String} (h : IsWord s) : Tame (.name s)

namespace Program

variable {L : Literal → Prop}

/-- What compilation relies on. -/
structure Tame (p : Program) : Prop extends p.SingleAssignment where
  moves : ∀ id ∈ p.order, (p.inst id).op = Opcode.move → ∃ v, (p.inst id).args = [v]
  reserved : ∀ id ∈ p.order, isConstant (p.inst id).dst = false
  ops : ∀ id ∈ p.order, IsWord (p.inst id).op
  operands : ∀ id ∈ p.order, ∀ v ∈ (p.inst id).args, v.Tame

/-- The instructions of a tame program have keys that can be read. -/
theorem Tame.legible {p : Program} (h : p.Tame) {id : InstId} (hid : id ∈ p.order) :
    (p.inst id).Legible := by
  refine ⟨h.ops id hid, fun v hv => ?_⟩
  cases h.operands id hid v hv with
  | literal _ => exact .literal _
  | ref r => exact .ref r
  | name hs => exact .name hs

/-- In a tame program, equal keys mean equal computations. -/
theorem Tame.eq_of_key_eq {p : Program} (h : p.Tame) {x y : InstId} (hx : x ∈ p.order)
    (hy : y ∈ p.order) (hkey : (p.inst x).key = (p.inst y).key) :
    (p.inst x).op = (p.inst y).op ∧ (p.inst x).args = (p.inst y).args :=
  (h.legible hx).eq_of_key_eq (h.legible hy) hkey

/-! ## Where definitions come from -/

/-- Every instruction of `q` has the destination of some instruction of `p`, which stands at the
same place or later. No instruction of `p` that writes a name is left out. -/
structure Origins (p q : Program) (f : InstId → InstId) : Prop where
  mem : ∀ y ∈ q.order, f y ∈ p.order
  dst : ∀ y ∈ q.order, (q.inst y).dst = (p.inst (f y)).dst
  before : ∀ y ∈ q.order, y = f y ∨ p.Precedes y (f y)
  inj : ∀ x ∈ q.order, ∀ y ∈ q.order, f x = f y → x = y
  named : ∀ x ∈ p.order, (p.inst x).isTemp = false → ∃ y ∈ q.order, f y = x

/-- Without a change of the order or of a destination, each instruction is its own origin. -/
theorem origins_of_same {p q : Program} (ho : q.order = p.order)
    (hd : ∀ y ∈ p.order, (q.inst y).dst = (p.inst y).dst) : Origins p q id where
  mem _ hy := ho ▸ hy
  dst y hy := hd y (ho ▸ hy)
  before _ _ := .inl rfl
  inj _ _ _ _ h := h
  named x hx _ := ⟨x, ho ▸ hx, rfl⟩

/-- After an analysis each instruction is its own origin. -/
theorem origins_analyze (p : Program) : Origins p p.analyze id := by
  refine origins_of_same (order_analyze p) fun y hy => ?_
  rw [inst_analyze hy]

/-- A temporary may be taken out. -/
theorem origins_of_erase {p q : Program} {z : InstId} (hn : p.order.Nodup)
    (ho : q.order = p.order.erase z) (hz : (p.inst z).isTemp = true)
    (hd : ∀ y ∈ p.order, (q.inst y).dst = (p.inst y).dst) : Origins p q id where
  mem _ hy := List.mem_of_mem_erase (ho ▸ hy)
  dst y hy := hd y (List.mem_of_mem_erase (ho ▸ hy))
  before _ _ := .inl rfl
  inj _ _ _ _ h := h
  named x hx ht := by
    have hne : x ≠ z := by
      rintro rfl
      exact absurd (ht.symm.trans hz) (by simp)
    exact ⟨x, by rw [ho, hn.mem_erase_iff]; exact ⟨hne, hx⟩, rfl⟩

/-- Steps take at most one instruction out. -/
theorem Rewrite.order {p q : Program} (hr : Rewrite L p q) :
    q.order = p.order ∨ ∃ z, q.order = p.order.erase z := by
  cases hr with
  | analyze => exact .inl (order_analyze _)
  | fuse => exact .inr ⟨_, order_fuse _ _ _ _ _ _⟩
  | simplify => exact .inl rfl
  | drop => exact .inr ⟨_, rfl⟩
  | rename => exact .inr ⟨_, rfl⟩
  | @forward id source uses _ _ => exact .inr ⟨id, by simp [bypass]⟩
  | merge => exact .inr ⟨_, rfl⟩
  | lift => exact .inl rfl

/-- No step brings an instruction in. -/
theorem Rewrite.mem_order {p q : Program} (hr : Rewrite L p q) {x : InstId} (hx : x ∈ q.order) :
    x ∈ p.order := by
  rcases hr.order with ho | ⟨z, ho⟩
  · exact ho ▸ hx
  · exact List.mem_of_mem_erase (ho ▸ hx)

/-- What stays in a program stays in order. -/
theorem Rewrite.precedes {p q : Program} (hr : Rewrite L p q) (hn : p.order.Nodup) {a b : InstId}
    (ha : a ∈ q.order) (hb : b ∈ q.order) (h : p.Precedes a b) : q.Precedes a b := by
  rcases hr.order with ho | ⟨z, ho⟩
  · rw [Precedes, ho]
    exact h
  · rw [ho, hn.mem_erase_iff] at ha hb
    rw [Precedes, ho]
    exact (precedes_remove hn).mpr ⟨h, ha.1, hb.1⟩

/-- Every destination after a step was one before it. -/
theorem Rewrite.origins {p q : Program} (hr : Rewrite L p q) (h : p.Consistent) :
    ∃ f, Origins p q f := by
  cases hr with
  | analyze => exact ⟨id, origins_analyze p⟩
  | fuse hid hu hc hf =>
      have ht := (h.precedes_of_candidate hid hu hc).2
      refine ⟨id, origins_of_erase h.nodup (order_fuse _ _ _ _ _ _) ht fun y _ => ?_⟩
      rw [inst_fuse]
      split
      · rename_i hy
        rw [hy]
        exact (dst_uses_of_fuse? hf).1
      · rfl
  | simplify hi _ hrule =>
      refine ⟨id, origins_of_same rfl fun y _ => ?_⟩
      rw [inst_modify]
      split
      · rename_i hy
        rw [hy]
        exact (dst_uses_of_rule hi hrule).1
      · rfl
  | drop hid hd =>
      exact ⟨id, origins_of_erase h.nodup rfl (Bool.and_eq_true_iff.mp hd).1 fun _ _ => rfl⟩
  | @rename d user dst uses hid hu hs hm =>
      obtain ⟨-, hargs, rfl, rfl⟩ := moveFrom?_eq_some hm
      obtain ⟨hpre, htemp⟩ := h.refs user hu d (by simp [hargs])
      have hne : d ≠ user := hpre.ne h.nodup
      have hmem : ∀ y ∈ (p.takeOver d user (p.inst user).dst (p.inst user).uses).order,
          y ≠ user ∧ y ∈ p.order := fun y hy => h.nodup.mem_erase_iff.mp hy
      -- the producer now stands for the move
      refine ⟨fun y => if y = d then user else y, ?_, ?_, ?_, ?_, ?_⟩
      · intro y hy
        split
        · exact hu
        · exact (hmem y hy).2
      · intro y hy
        by_cases hyd : y = d
        · rw [if_pos hyd, hyd, inst_takeOver_self h hu hne hid]
        · rw [if_neg hyd, inst_takeOver_of_ne h hu (hmem y hy).1 (hmem y hy).2 hyd]
          rfl
      · intro y hy
        by_cases hyd : y = d
        · rw [if_pos hyd, hyd]
          exact .inr hpre
        · rw [if_neg hyd]
          exact .inl rfl
      · intro x hx y hy hxy
        split at hxy
        · split at hxy
          · simp_all
          · exact absurd hxy.symm (hmem y hy).1
        · split at hxy
          · exact absurd hxy (hmem x hx).1
          · exact hxy
      · intro x hx ht
        by_cases hxu : x = user
        · exact ⟨d, h.nodup.mem_erase_iff.mpr ⟨hne, hid⟩, by rw [if_pos rfl, hxu]⟩
        · have hxd : x ≠ d := by
            rintro rfl
            exact absurd (ht.symm.trans htemp) (by simp)
          exact ⟨x, h.nodup.mem_erase_iff.mpr ⟨hxu, hx⟩, if_neg hxd⟩
  | forward hid hf =>
      obtain ⟨-, ht, -, rfl⟩ := forwardable?_eq_some hf
      refine ⟨id, origins_of_erase h.nodup (by simp [bypass]) ht fun y hy => ?_⟩
      rw [inst_bypass h hid _ hy]
      rfl
  | merge hpre _ _ ht =>
      refine ⟨id, origins_of_erase h.nodup rfl ht fun y hy => ?_⟩
      rw [inst_merge h _ hpre.right_mem hy]
      rfl
  | lift =>
      refine ⟨id, origins_of_same rfl fun y _ => ?_⟩
      rw [liftOperands, inst_modify]
      split
      · rename_i hy
        rw [hy]
      · rfl

/-- A name that is written was written by the origin. -/
theorem Origins.defines {p q : Program} {f : InstId → InstId} (ho : Origins p q f) {y : InstId}
    {n : String} (h : q.Defines y n) : p.Defines (f y) n := by
  obtain ⟨hy, ht, hd⟩ := h
  have hdst := ho.dst y hy
  exact ⟨ho.mem y hy, by rw [Inst.isTemp, ← hdst]; exact ht, by rw [← hdst]; exact hd⟩

/-! ## Opcodes -/

/-- The opcodes that steps put in place of others, apart from moves. -/
def introduced : List String := [Opcode.mulAddF, Opcode.mulSubF, Opcode.addF, Opcode.mulF]

/-- An instruction keeps its opcode and its number of operands, or it gets an opcode that steps
introduce, or it becomes a move of one operand. Opcodes that take an integer in place are kept. -/
inductive Reshaped (i i' : Inst) : Prop where
  | same (hop : i'.op = i.op) (hlen : i'.args.length = i.args.length)
  | changed (hold : Opcode.isImmediate i.op = false) (h : i'.op ∈ introduced) (hne : i'.args ≠ [])
  | moved (hold : Opcode.isImmediate i.op = false) (hop : i'.op = Opcode.move)
      (h : ∃ v, i'.args = [v])

/-- An algebraic rule reshapes an instruction. -/
theorem reshaped_of_rule {rule : Rule} (hr : rule.IsIdentity) {i i' : Inst} {e : Event}
    (h : rule i = some (i', e)) : Reshaped i i' := by
  rcases hr with rfl | rfl | rfl
  · obtain ⟨x, hop, -, rfl⟩ := unitProduct_eq_some h
    exact .moved (by rw [hop]; decide) rfl ⟨x, rfl⟩
  · obtain ⟨a, b, hop, -, rfl⟩ := unitProductSum_eq_some h
    exact .changed (by rw [hop]; decide) (by simp [introduced]) (by simp)
  · obtain ⟨x, k, hop, -, rfl⟩ := reciprocal_eq_some h
    exact .changed (by rw [hop]; decide) (by simp [introduced]) (by simp)

/-- Neither operands that are replaced nor a new destination change the opcode. -/
theorem reshaped_of_replace (i : Inst) (old new : Value) (uses : List InstId) (dst : String) :
    Reshaped i { i.replace old new with uses, dst } :=
  .same rfl (by simp [Inst.replace])

/-- A step reshapes every instruction that stays. -/
theorem Rewrite.reshaped {p q : Program} (hr : Rewrite L p q) (h : p.Consistent) {x : InstId}
    (hx : x ∈ q.order) : Reshaped (p.inst x) (q.inst x) := by
  have hxo := hr.mem_order hx
  cases hr with
  | analyze =>
      rw [inst_analyze hxo]
      exact .same rfl rfl
  | @fuse id user a b fused _ _ _ hf =>
      rw [inst_fuse]
      split
      · rename_i hx
        rw [hx]
        obtain ⟨y, ⟨hop, -, rfl⟩ | ⟨hop, -, rfl⟩⟩ := fuse?_eq_some hf
        · exact .changed (by rw [hop]; decide) (by simp [introduced]) (by simp)
        · exact .changed (by rw [hop]; decide) (by simp [introduced]) (by simp)
      · exact .same rfl rfl
  | simplify hi _ hrule =>
      rw [inst_modify]
      split
      · rename_i hxid
        rw [hxid]
        exact reshaped_of_rule hi hrule
      · exact .same rfl rfl
  | drop => exact .same rfl rfl
  | @rename id user dst uses hid hu hs hm =>
      obtain ⟨-, hargs, rfl, rfl⟩ := moveFrom?_eq_some hm
      have hne : id ≠ user := (h.refs user hu id (by simp [hargs])).1.ne h.nodup
      obtain ⟨hxu, -⟩ := h.nodup.mem_erase_iff.mp hx
      by_cases hxid : x = id
      · rw [hxid, inst_takeOver_self h hu hne hid]
        exact reshaped_of_replace _ _ _ _ _
      · rw [inst_takeOver_of_ne h hu hxu hxo hxid]
        exact reshaped_of_replace _ _ _ _ _
  | forward hid hf =>
      obtain ⟨-, -, -, rfl⟩ := forwardable?_eq_some hf
      rw [inst_bypass h hid _ hxo]
      exact reshaped_of_replace _ _ _ _ _
  | merge hpre _ _ _ =>
      rw [inst_merge h _ hpre.right_mem hxo]
      exact reshaped_of_replace _ _ _ _ _
  | lift =>
      rw [liftOperands, inst_modify]
      split
      · rename_i hxid
        rw [hxid]
        exact .same rfl (by simp)
      · exact .same rfl rfl

/-! ## Opcodes are identifiers -/

/-- The opcodes that passes bring in are names. -/
theorem isName_of_introduced {op : String} (h : op ∈ introduced) : Source.IsName op := by
  have hall : ∀ op ∈ introduced, Source.isIdent (Source.ofText op) = true := by decide
  exact Source.isName_of_isIdent (hall op h)

/-- The opcode of moves is a name. -/
theorem isName_move : Source.IsName Opcode.move := Source.isName_of_isIdent (by decide)

/-- The opcode that sets upper bits is a name. -/
theorem isName_luImm : Source.IsName Opcode.luImm := Source.isName_of_isIdent (by decide)

/-- The opcode that adds a low field is a name. -/
theorem isName_orIImm : Source.IsName Opcode.orIImm := Source.isName_of_isIdent (by decide)

/-- The immediate forms of opcodes are names. -/
theorem isName_immediateForm {op : String} (h : op = Opcode.gtI ∨ op = Opcode.subI) :
    Source.IsName (op ++ Opcode.immediateMark) := by
  rcases h with rfl | rfl
  · exact Source.isName_of_isIdent (by decide)
  · exact Source.isName_of_isIdent (by decide)

/-! ## Steps of passes keep programs tame -/

/-- What a step takes over from the operands of a tame program is tame. -/
theorem tame_of_derived {p : Program} (h : p.Tame) {x : InstId} {v : Value} (hv : p.Derived x v) :
    v.Tame := by
  cases hv with
  | kept hread =>
      obtain ⟨y, hy, -, hv⟩ := hread
      exact h.operands y hy _ hv
  | ref r => exact .ref r
  | lifted _ => exact .name (isWord_of_isName (Source.isName_constantName _))
  | inverted _ => exact .literal (Literal.canonical_ofFloatBits _)

/-- Definitions only move up and reads only move down. -/
theorem Rewrite.singleAssignment {p q : Program} (hr : Rewrite L p q) (hp : p.Consistent)
    (h : p.Tame) : q.SingleAssignment := by
  obtain ⟨f, hf⟩ := hr.origins hp
  constructor
  · intro x y n hx hy
    exact hf.inj x hx.1 y hy.1 (h.unique (hf.defines hx) (hf.defines hy))
  · intro x y n hy hx hv
    have hdef := hf.defines hy
    cases hr.derived hp hx hv with
    | kept hread =>
        obtain ⟨z, hz, hzx, hv⟩ := hread
        have hfz : p.Precedes (f y) z := h.reads hdef hz hv
        have hyz : p.Precedes y z := by
          rcases hf.before y hy.1 with he | hb
          · exact he ▸ hfz
          · exact hb.trans hp.nodup hfz
        have hyx : p.Precedes y x := by
          rcases hzx with rfl | ⟨hzx, -⟩
          · exact hyz
          · exact hyz.trans hp.nodup hzx
        exact hr.precedes hp.nodup hy.1 hx hyx
    | lifted hread =>
        -- nothing writes a constant
        have hreserved := h.reserved (f y) hdef.1
        rw [hdef.2.2, Literal.isConstant_constantName] at hreserved
        exact absurd hreserved (by simp)

/-- A step of a pass keeps a program tame. -/
theorem Rewrite.tame {p q : Program} (hr : Rewrite L p q) (hp : p.Consistent) (h : p.Tame) :
    q.Tame := by
  refine ⟨hr.singleAssignment hp h, fun x hx hop => ?_, fun x hx => ?_, fun x hx => ?_,
    fun x hx v hv => ?_⟩
  · have hxo := hr.mem_order hx
    rcases hr.reshaped hp hx with ⟨hsame, hlen⟩ | ⟨-, hchanged, -⟩ | ⟨-, -, hone⟩
    · obtain ⟨v, hv⟩ := h.moves x hxo (hsame ▸ hop)
      rw [hv] at hlen
      exact List.length_eq_one_iff.mp hlen
    · rw [hop] at hchanged
      exact absurd hchanged (by decide)
    · exact hone
  · obtain ⟨f, hf⟩ := hr.origins hp
    rw [hf.dst x hx]
    exact h.reserved _ (hf.mem x hx)
  · rcases hr.reshaped hp hx with ⟨hsame, -⟩ | ⟨-, hchanged, -⟩ | ⟨-, hmove, -⟩
    · rw [hsame]
      exact h.ops x (hr.mem_order hx)
    · exact isWord_of_isName (isName_of_introduced hchanged)
    · rw [hmove]
      exact isWord_of_isName isName_move
  · exact tame_of_derived h (hr.derived hp hx hv)

/-! ## Steps of lowering keep programs tame -/

/-- An operand that reads no name. -/
def NoName (v : Value) : Prop := v.Tame ∧ ∀ n, v ≠ .name n

/-- A reference reads no name. -/
theorem noName_ref (r : InstId) : NoName (.ref r) := ⟨.ref r, by simp⟩

/-- An immediate reads no name. -/
theorem noName_immediate (field : UInt32) : NoName (immediate field) :=
  ⟨.literal fun h => absurd h (by simp [Literal.ofInt]), by simp [immediate]⟩

/-- An instruction may change if it writes the same and reads no other name. -/
theorem Tame.modify {p : Program} (h : p.Tame) {id : InstId} {f : Inst → Inst}
    (hdst : (f (p.inst id)).dst = (p.inst id).dst)
    (hop : IsWord (f (p.inst id)).op)
    (hmove : (f (p.inst id)).op = Opcode.move → ∃ v, (f (p.inst id)).args = [v])
    (hargs : ∀ v ∈ (f (p.inst id)).args, v ∈ (p.inst id).args ∨ NoName v) :
    (p.modify id f).Tame := by
  have hd : ∀ x, ((p.modify id f).inst x).dst = (p.inst x).dst := by
    intro x
    rw [inst_modify]
    split
    · rename_i hx
      rw [hx, hdst]
    · rfl
  have hdef : ∀ {x n}, (p.modify id f).Defines x n → p.Defines x n := by
    rintro x n ⟨hx, ht, hn⟩
    exact ⟨hx, by rw [Inst.isTemp, ← hd]; exact ht, by rw [← hd]; exact hn⟩
  have hread : ∀ x v, v ∈ ((p.modify id f).inst x).args → v ∈ (p.inst x).args ∨ NoName v := by
    intro x v hv
    rw [inst_modify] at hv
    split at hv
    · rename_i hx
      exact hx ▸ hargs v hv
    · exact .inl hv
  refine ⟨⟨fun hx hy => h.unique (hdef hx) (hdef hy), fun {x y n} hy hx hv => ?_⟩,
    fun x hx => ?_, fun x hx => ?_, fun x hx => ?_, fun x hx v hv => ?_⟩
  · rcases hread x _ hv with hv | hv
    · exact h.reads (hdef hy) hx hv
    · exact absurd rfl (hv.2 n)
  · rw [inst_modify]
    split
    · exact hmove
    · exact h.moves x hx
  · rw [hd]
    exact h.reserved x hx
  · rw [inst_modify]
    split
    · exact hop
    · exact h.ops x hx
  · rcases hread x v hv with hv | hv
    · exact h.operands x hx v hv
    · exact hv.1

/-- A temporary that reads no name may be put in front. -/
theorem Tame.prepend {p : Program} (h : p.Tame) (hp : p.Valid) {i : Inst} (ht : i.isTemp = true)
    (hc : isConstant i.dst = false) (hop : IsWord i.op) (hmove : i.op ≠ Opcode.move)
    (hargs : ∀ v ∈ i.args, NoName v) : (p.prepend i).Tame := by
  have hold : ∀ x ∈ p.order, (p.prepend i).inst x = p.inst x := fun x hx =>
    inst_prepend_of_ne i (ne_nextId_of_known (hp.known x hx))
  have hcases : ∀ x ∈ (p.prepend i).order,
      (x = p.nextId ∧ (p.prepend i).inst x = i) ∨
        x ∈ p.order ∧ (p.prepend i).inst x = p.inst x := by
    intro x hx
    rcases List.mem_cons.mp hx with rfl | hx
    · exact .inl ⟨rfl, inst_prepend_new p i⟩
    · exact .inr ⟨hx, hold x hx⟩
  have hdef : ∀ {x n}, (p.prepend i).Defines x n → p.Defines x n := by
    rintro x n ⟨hx, htemp, hn⟩
    rcases hcases x hx with ⟨-, hi⟩ | ⟨hx, hi⟩
    · rw [hi, ht] at htemp
      exact absurd htemp (by simp)
    · rw [hi] at htemp hn
      exact ⟨hx, htemp, hn⟩
  refine ⟨⟨fun hx hy => h.unique (hdef hx) (hdef hy), fun {x y n} hy hx hv => ?_⟩,
    fun x hx hm => ?_, fun x hx => ?_, fun x hx => ?_, fun x hx v hv => ?_⟩
  · rcases hcases x hx with ⟨-, hi⟩ | ⟨hx, hi⟩
    · rw [hi] at hv
      exact absurd rfl ((hargs _ hv).2 n)
    · rw [hi] at hv
      exact (h.reads (hdef hy) hx hv).prepend
  · rcases hcases x hx with ⟨-, hi⟩ | ⟨hx, hi⟩
    · rw [hi] at hm
      exact absurd hm hmove
    · rw [hi] at hm ⊢
      exact h.moves x hx hm
  · rcases hcases x hx with ⟨-, hi⟩ | ⟨hx, hi⟩
    · rw [hi]
      exact hc
    · rw [hi]
      exact h.reserved x hx
  · rcases hcases x hx with ⟨-, hi⟩ | ⟨hx, hi⟩
    · rw [hi]
      exact hop
    · rw [hi]
      exact h.ops x hx
  · rcases hcases x hx with ⟨-, hi⟩ | ⟨hx, hi⟩
    · rw [hi] at hv
      exact (hargs v hv).1
    · rw [hi] at hv
      exact h.operands x hx v hv

/-- A temporary is no constant. -/
theorem isConstant_of_isTemp {s : String} (h : Straightline.isTemp s = true) :
    isConstant s = false := by
  unfold Straightline.isTemp at h
  unfold isConstant
  cases hs : s.toList with
  | nil => rfl
  | cons c rest =>
      rw [hs, List.isPrefixOf_cons_cons, Bool.and_eq_true, beq_iff_eq] at h
      rw [← h.1]
      rfl

/-- Building a float keeps a program tame. -/
theorem Tame.buildFloat {p : Program} (h : p.Tame) (hp : p.Valid) (l : Literal) :
    (p.buildFloat l).2.Tame := by
  have himmediate : ∀ field, ∀ v ∈ [immediate field], NoName v := by
    intro field v hv
    rw [List.mem_singleton.mp hv]
    exact noName_immediate field
  have hfloat : Straightline.isTemp (floatName l) = true := by
    simp [Straightline.isTemp, floatName]
  have hhigh : Straightline.isTemp (floatHighName l) = true := by
    simp [Straightline.isTemp, floatHighName]
  have hluWord : IsWord Opcode.luImm := isWord_of_isName isName_luImm
  have horWord : IsWord Opcode.orIImm := isWord_of_isName isName_orIImm
  have hlu : Opcode.luImm ≠ Opcode.move := by decide
  have hor : Opcode.orIImm ≠ Opcode.move := by decide
  by_cases hlow : l.low = 0
  · rw [buildFloat_of_low_eq l hlow]
    exact h.prepend hp hfloat (isConstant_of_isTemp hfloat) hluWord hlu (himmediate _)
  · rw [buildFloat_of_low_ne l hlow]
    have hq := h.prepend hp (i := lowInst l [immediate l.low]) hfloat
      (isConstant_of_isTemp hfloat) horWord hor (himmediate _)
    have hq' := hq.prepend (hp.prepend (by simp [lowInst, immediate]) rfl)
      (i := highInst (floatHighName l) l) hhigh (isConstant_of_isTemp hhigh) hluWord hlu
      (himmediate _)
    have hne : p.nextId ≠ (p.prepend (lowInst l [immediate l.low])).nextId := by
      rw [← succ_nextId]
      exact (succ_ne _).symm
    have hinst : (((p.prepend (lowInst l [immediate l.low])).prepend
        (highInst (floatHighName l) l)).inst p.nextId) = lowInst l [immediate l.low] := by
      rw [inst_prepend_of_ne _ hne, inst_prepend_new]
    dsimp only
    apply hq'.modify
    case hdst => rfl
    case hop =>
      rw [hinst]
      exact horWord
    case hmove =>
      rw [hinst]
      exact fun hm => absurd hm hor
    case hargs =>
      intro v hv
      have hv' : v = .ref p.nextId.succ ∨ v = immediate l.low := by simpa using hv
      rcases hv' with rfl | rfl
      · exact .inr (noName_ref _)
      · exact .inr (noName_immediate _)

end Program

open Program

/-- The immediate form of an opcode is not the opcode of moves. -/
theorem immediateForm_ne_move (op : String) : op ++ Opcode.immediateMark ≠ Opcode.move := by
  intro h
  have himmediate := Opcode.isImmediate_append op
  rw [h] at himmediate
  exact absurd himmediate (by decide)

/-- A step of lowering keeps a program tame. -/
theorem LowerStep.tame {source : Program} {s t : Built × Program} (hst : LowerStep source s t)
    (hl : Lowering source s) (h : s.2.Tame) : t.2.Tame := by
  cases hst with
  | @build _ _ _ l _ _ _ _ => exact h.buildFloat hl.valid l
  | @place built p id r position l hid ha hk hr =>
      have hid' : id ∈ p.order := hl.order.subset hid
      have hp : p.Tame := h
      dsimp only
      apply hp.modify
      case hdst => rfl
      case hop => exact hp.ops id hid'
      case hmove =>
        intro hm
        obtain ⟨v, hv⟩ := hp.moves id hid' hm
        apply List.length_eq_one_iff.mp
        rw [List.length_set]
        exact congrArg List.length hv
      case hargs =>
        intro v hv
        rcases List.mem_or_eq_of_mem_set hv with hv | rfl
        · exact .inl hv
        · exact .inr (noName_ref r)
  | @encode built p id l i hid ha hk hi =>
      have hid' : id ∈ p.order := hl.order.subset hid
      have hp : p.Tame := h
      obtain ⟨hdst, -, -⟩ := of_encodeInteger hi
      dsimp only
      rcases encodeInteger_eq_ok hi with ⟨-, -, rfl⟩ | ⟨-, rfl⟩ | ⟨hop, rfl⟩
      · apply hp.modify
        case hdst => exact hdst
        case hop => exact isWord_of_isName isName_luImm
        case hmove => exact fun hm => absurd hm (by decide : Opcode.luImm ≠ Opcode.move)
        case hargs =>
          intro v hv
          rw [List.mem_singleton.mp hv]
          exact .inr (noName_immediate _)
      · exact hp.modify hdst (hp.ops id hid') (hp.moves id hid') fun v hv => .inl hv
      · exact hp.modify hdst (isWord_of_isName (isName_immediateForm hop))
          (fun hm => absurd hm (immediateForm_ne_move _)) fun v hv => .inl hv

end Straightline
