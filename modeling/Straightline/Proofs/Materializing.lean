import Mathlib.Algebra.BigOperators.Group.Finset.Basic
import Straightline.Proofs.Frames
import Straightline.Proofs.Preservation

/-!
# What becomes of literals

Lowering builds each float of the program once, in a block in front of the program, and puts
references to what it has built in place of the floats; integers stay where they are. This file says
so exactly. `Inst.LoweredTo` is what lowering makes of one instruction, given the table of the
floats built so far, and `Materializing` what the table has to do with the order and the
instructions of the program. Each step keeps it, so a whole run does (`LowerSteps.materializing`).

There is one exception: a move of an integer together with other operands is turned into the
`lu_imm` of the integer, and the other operands are gone. Where moves have one operand, lowering
materializes every float (`floats_materialized_of_lower`). Where a move has more, all other
instructions still keep their operands (`operands_kept_of_lower`), and this one may not
(`lower_discards_operand_of_move`).
-/

set_option autoImplicit false

namespace Straightline

/-- The float literals of live instructions. -/
def Program.floats (p : Program) : Finset Literal :=
  (p.literals.filter (·.kind = .float)).toFinset

/-- The floats of a program are those among the operands of live instructions. -/
theorem Program.mem_floats {p : Program} {l : Literal} :
    l ∈ p.floats ↔ l.kind = .float ∧ ∃ id ∈ p.order, .literal l ∈ (p.inst id).args := by
  simp [floats, literals, and_comm]

/-! ## One instruction -/

/-- An element in the second of two related lists has a partner, and may be exchanged for another
one that the partner is related to. -/
theorem forall₂_set {α β : Type} {R : α → β → Prop} {xs : List α} {ys : List β}
    (h : List.Forall₂ R xs ys) {k : Nat} {y : β} (hk : ys[k]? = some y) :
    ∃ x, xs[k]? = some x ∧ R x y ∧ ∀ z, R x z → List.Forall₂ R xs (ys.set k z) := by
  induction h generalizing k with
  | nil => simp at hk
  | @cons x y' xs ys hxy hrest ih =>
      cases k with
      | zero =>
          obtain rfl : y' = y := by simpa using hk
          exact ⟨x, rfl, hxy, fun z hz => .cons hz hrest⟩
      | succ k =>
          obtain ⟨x', hx', hxy', hset⟩ := ih (by simpa using hk)
          exact ⟨x', hx', hxy', fun z hz => .cons hxy (hset z hz)⟩

/-- An operand is as it was, or a reference to the instruction that holds the float it was. -/
inductive Value.Placed (built : Built) : Value → Value → Prop where
  | same (v : Value) : Placed built v v
  | float {l : Literal} {r : InstId} (hk : l.kind = .float) (hr : (l, r) ∈ built) :
      Placed built (.literal l) (.ref r)

/-- An operand that is no float is as it was. -/
theorem Value.Placed.kept {built : Built} {xs ys : List Value}
    (h : List.Forall₂ (Value.Placed built) xs ys) {k : Nat} {v : Value} (hget : xs[k]? = some v)
    (hv : ∀ l, v = .literal l → l.kind = .int) : ys[k]? = some v := by
  obtain ⟨v', hget', hplaced, -⟩ := forall₂_set h.flip hget
  cases hplaced with
  | same => exact hget'
  | float hk _ => exact absurd ((hv _ rfl).symm.trans hk) (by simp)

/-- What lowering makes of an instruction: floats are replaced and the opcode may have become its
immediate form, or all that is left is an integer that was moved. -/
inductive Inst.LoweredTo (built : Built) (i : Inst) : Inst → Prop where
  | operands {op : String} {args : List Value}
      (hop : op = i.op ∨ (i.op = Opcode.gtI ∨ i.op = Opcode.subI) ∧
        op = i.op ++ Opcode.immediateMark)
      (hargs : List.Forall₂ (Value.Placed built) i.args args) :
      LoweredTo built i { i with op, args }
  | upper {l : Literal} (hop : i.op = Opcode.move) (hl : .literal l ∈ i.args) (hk : l.kind = .int)
      (hlow : l.low = 0) :
      LoweredTo built i { i with op := Opcode.luImm, args := [immediate l.high] }

namespace Inst.LoweredTo

variable {built built' : Built} {i j : Inst} {l : Literal} {r : InstId}

theorem refl (built : Built) (i : Inst) : i.LoweredTo built i :=
  .operands (.inl rfl) (List.forall₂_same.mpr fun v _ => .same v)

/-- What is lowered stays so when more floats have been built. -/
theorem mono (h : i.LoweredTo built j) (hsub : built ⊆ built') : i.LoweredTo built' j := by
  cases h with
  | upper hop hl hk hlow => exact .upper hop hl hk hlow
  | operands hop hargs =>
      refine .operands hop (hargs.imp fun v v' hv => ?_)
      cases hv with
      | same => exact .same _
      | float hk hr => exact .float hk (hsub hr)

/-- A float that is still there was there at the beginning, in the same place, and what holds it may
be put in its place. -/
theorem float_of_getElem? (h : i.LoweredTo built j) (hk : l.kind = .float) {k : Nat}
    (hl : j.args[k]? = some (.literal l)) : i.args[k]? = some (.literal l) ∧
      ∀ r, (l, r) ∈ built → i.LoweredTo built { j with args := j.args.set k (.ref r) } := by
  cases h with
  | upper hop hm hk' hlow =>
      have hint := List.mem_of_getElem? hl
      simp only [immediate, List.mem_singleton, Value.literal.injEq] at hint
      rw [hint] at hk
      exact absurd hk (by simp [Literal.ofInt])
  | operands hop hargs =>
      obtain ⟨v, hv, hplaced, hset⟩ := forall₂_set hargs hl
      cases hplaced with
      | same => exact ⟨hv, fun r hr => .operands hop (hset _ (.float hk hr))⟩

/-- An integer is encoded where it stands, or it is the one that was moved. -/
theorem encode (h : i.LoweredTo built j) (hl : .literal l ∈ j.args) (hk : l.kind = .int) {j' : Inst}
    (hj : encodeInteger l j = .ok j') : i.LoweredTo built j' := by
  -- no form with a mark is met again as an opcode without one
  have hmarked : ∀ {op other : String}, Opcode.isImmediate other = false →
      op = i.op ++ Opcode.immediateMark → op ≠ other := by
    rintro op other hother rfl rfl
    rw [Opcode.isImmediate_append] at hother
    simp at hother
  rcases encodeInteger_eq_ok hj with ⟨hmove, hlow, rfl⟩ | ⟨-, rfl⟩ | ⟨hform, rfl⟩
  · cases h with
    | upper => exact absurd hmove (show Opcode.luImm ≠ Opcode.move by decide)
    | operands hop hargs =>
        have hsame : i.op = Opcode.move := by
          rcases hop with rfl | ⟨-, hop⟩
          · exact hmove
          · exact absurd hmove (hmarked (by decide) hop)
        obtain ⟨k, hget⟩ := List.getElem?_of_mem hl
        obtain ⟨v, hv, hplaced, -⟩ := forall₂_set hargs hget
        cases hplaced with
        | same => exact .upper hsame (List.mem_of_getElem? hv) hk hlow
  · exact h
  · cases h with
    | upper =>
        have hother : ¬ (Opcode.luImm = Opcode.gtI ∨ Opcode.luImm = Opcode.subI) := by decide
        exact absurd hform hother
    | operands hop hargs =>
        rcases hop with rfl | ⟨-, hop⟩
        · exact .operands (.inr ⟨hform, rfl⟩) hargs
        · rcases hform with hform | hform
          · exact absurd hform (hmarked (by decide) hop)
          · exact absurd hform (hmarked (by decide) hop)

end Inst.LoweredTo

/-! ## The table of floats -/

/-- What lowering the program `source` has done, with the table of floats built so far: it holds no
float twice and none that the program does not have, the block in front of the program is what
builds these, and the instructions of the program are lowered with their help. -/
structure Materializing (source : Program) (s : Built × Program) : Prop where
  size : source.size ≤ s.2.size
  order : s.2.order = s.1.flatMap (fun e => Program.parts e.1 e.2) ++ source.order
  keys : (s.1.map Prod.fst).Nodup
  floats : ∀ e ∈ s.1, e.1 ∈ source.floats
  builds : ∀ e ∈ s.1, s.2.Builds e.1 e.2
  fresh : ∀ e ∈ s.1, ∀ x ∈ Program.parts e.1 e.2, s.2.Known x ∧ ¬ source.Known x
  insts : ∀ id ∈ source.order, (source.inst id).LoweredTo s.1 (s.2.inst id)

namespace Materializing

variable {source p : Program} {built : Built}

theorem start (source : Program) : Materializing source ([], source) where
  size := Nat.le_refl _
  order := rfl
  keys := List.nodup_nil
  floats := by simp
  builds := by simp
  fresh := by simp
  insts id _ := .refl [] _

/-- Changing an instruction of the source leaves what was built alone. -/
theorem modify (h : Materializing source (built, p)) (hs : source.Listed) {id : InstId}
    (hid : id ∈ source.order) {f : Inst → Inst}
    (hf : (source.inst id).LoweredTo built (f (p.inst id))) :
    Materializing source (built, p.modify id f) where
  size := h.size
  order := h.order
  keys := h.keys
  floats := h.floats
  builds e he := by
    refine (h.builds e he).congr fun x hx => Program.inst_modify_of_ne _ ?_
    rintro rfl
    exact (h.fresh e he x hx).2 (hs.known x hid)
  fresh := h.fresh
  insts x hx := by
    dsimp only
    rw [Program.inst_modify]
    split
    case isTrue hxid => exact hxid ▸ hf
    case isFalse => exact h.insts x hx

/-- A float of the program that is not in the table is built and gets a row. -/
theorem build (h : Materializing source (built, p)) (hs : source.Listed) {id : InstId}
    (hid : id ∈ source.order) {l : Literal} (ha : .literal l ∈ (p.inst id).args)
    (hk : l.kind = .float) (hl : built.lookup l = none) :
    Materializing source ((l, (p.buildFloat l).1) :: built, (p.buildFloat l).2) := by
  have hsize : source.size ≤ p.size := h.size
  have hkept : ∀ x, p.Known x → (p.buildFloat l).2.inst x = p.inst x := fun x hx =>
    Program.inst_buildFloat_of_known l hx
  have hgrown := Program.size_buildFloat (p := p) l
  rw [Program.fst_buildFloat]
  refine ⟨Nat.le_trans hsize hgrown, ?_, ?_, fun e he => ?_, fun e he => ?_, fun e he x hx => ?_,
    fun x hx => ?_⟩
  · dsimp only
    rw [Program.order_buildFloat_eq, List.flatMap_cons, List.append_assoc, h.order]
  · refine List.nodup_cons.mpr ⟨fun hm => ?_, h.keys⟩
    obtain ⟨e, he, rfl⟩ := List.mem_map.mp hm
    have hother := List.lookup_eq_none_iff.mp hl e he
    simp at hother
  · rcases List.mem_cons.mp he with rfl | he
    · obtain ⟨k, hget⟩ := List.getElem?_of_mem ha
      obtain ⟨hsource, -⟩ := (h.insts id hid).float_of_getElem? hk hget
      exact Program.mem_floats.mpr ⟨hk, id, hid, List.mem_of_getElem? hsource⟩
    · exact h.floats e he
  · rcases List.mem_cons.mp he with rfl | he
    · exact Program.builds_buildFloat l
    · exact (h.builds e he).congr fun x hx => hkept x (h.fresh e he x hx).1
  · rcases List.mem_cons.mp he with rfl | he
    · obtain ⟨hnew, hknown⟩ := Program.known_of_mem_parts l hx
      refine ⟨hknown, ?_⟩
      simp only [Program.Known]
      omega
    · obtain ⟨hknown, hnot⟩ := h.fresh e he x hx
      refine ⟨?_, hnot⟩
      simp only [Program.Known] at hknown ⊢
      omega
  · have hx' : p.Known x := by
      have := hs.known x hx
      simp only [Program.Known] at this ⊢
      omega
    dsimp only
    rw [hkept x hx']
    exact (h.insts x hx).mono (List.subset_cons_self _ _)

end Materializing

/-- A step of lowering keeps what lowering has done. -/
theorem LowerStep.materializing {source : Program} {s t : Built × Program}
    (hst : LowerStep source s t) (hs : source.Listed) (h : Materializing source s) :
    Materializing source t := by
  cases hst with
  | build hid ha hk hl => exact h.build hs hid ha hk hl
  | place hid ha hk hr =>
      exact h.modify hs hid (((h.insts _ hid).float_of_getElem? hk ha).2 _ hr)
  | encode hid ha hk hi => exact h.modify hs hid ((h.insts _ hid).encode ha hk hi)

/-- What each step keeps, lowering keeps. -/
theorem LowerSteps.materializing {source : Program} {s : Built × Program}
    (hst : LowerSteps source ([], source) s) (hs : source.Listed) : Materializing source s := by
  induction hst with
  | refl => exact .start source
  | tail _ hstep ih => exact hstep.materializing hs ih

/-- The row of a float in a table without repetitions. -/
theorem lookup_of_mem {built : Built} (hkeys : (built.map Prod.fst).Nodup) {e : Literal × InstId}
    (he : e ∈ built) : built.lookup e.1 = some e.2 := by
  induction built with
  | nil => simp at he
  | cons d built ih =>
      obtain ⟨hd, hkeys⟩ := List.nodup_cons.mp hkeys
      rcases List.mem_cons.mp he with rfl | he
      · exact List.lookup_cons_self
      · have hne : e.1 ≠ d.1 := fun heq => hd (heq ▸ List.mem_map_of_mem he)
        rw [List.lookup_cons, beq_false_of_ne hne]
        exact ih hkeys he

/-! ## Floats -/

/-- An immediate is the integer with the bits of its field. -/
theorem immediate_eq (field : UInt32) : immediate field = .literal ⟨.int, field⟩ := by
  show Value.literal ⟨.int, (Literal.ofInt field.toNat).bits⟩ = _
  rw [Interpretation.bits_ofInt]

namespace Program

/-- The instructions of a list build a float in program order, and the last one of them holds it:
the upper bits alone if the low field is empty, else the upper bits and then both. -/
inductive Constructs (q : Program) (l : Literal) : List InstId → InstId → Prop where
  | upper {holder : InstId} (hlow : l.bits &&& 0x1fff = 0)
      (hop : (q.inst holder).op = Opcode.luImm)
      (hargs : (q.inst holder).args = [.literal ⟨.int, l.bits >>> 13⟩])
      (hbits : (l.bits >>> 13) <<< 13 = l.bits) : Constructs q l [holder] holder
  | both {high holder : InstId} (hlow : l.bits &&& 0x1fff ≠ 0)
      (hhigh : (q.inst high).op = Opcode.luImm)
      (hfield : (q.inst high).args = [.literal ⟨.int, l.bits >>> 13⟩])
      (hop : (q.inst holder).op = Opcode.orIImm)
      (hargs : (q.inst holder).args = [.ref high, .literal ⟨.int, l.bits &&& 0x1fff⟩])
      (hbits : (l.bits >>> 13) <<< 13 ||| (l.bits &&& 0x1fff) = l.bits) :
      Constructs q l [high, holder] holder

variable {p q : Program} {l m : Literal} {id : InstId} {ids ids' : List InstId}

/-- What builds a float consists of its parts. -/
theorem Builds.constructs (h : q.Builds l id) : q.Constructs l (parts l id) id := by
  have hbits := Interpretation.high_or_low l
  cases h with
  | upper hlow hi =>
      rw [hlow, UInt32.or_zero] at hbits
      rw [parts_of_low_eq hlow]
      exact .upper hlow (by rw [hi]; rfl) (by rw [hi, highInst, immediate_eq]; rfl) hbits
  | both hlow hh hi =>
      rw [parts_of_low_ne hlow]
      exact .both hlow (by rw [hh]; rfl) (by rw [hh, highInst, immediate_eq]; rfl)
        (by rw [hi]; rfl) (by rw [hi, lowInst, immediate_eq]; rfl) hbits

/-- No instruction holds two floats: what it holds can be read off the immediates. -/
theorem Constructs.bits_eq (h : q.Constructs l ids id) (h' : q.Constructs m ids' id) :
    l.bits = m.bits := by
  cases h with
  | upper _ hop hargs hbits =>
      cases h' with
      | upper _ _ hargs' hbits' =>
          have hfield : l.bits >>> 13 = m.bits >>> 13 := by simpa [hargs] using hargs'
          rw [← hbits, ← hbits', hfield]
      | both _ _ _ hop' _ _ => exact absurd (hop.symm.trans hop') (by decide)
  | @both high _ _ _ hfield hop hargs hbits =>
      cases h' with
      | upper _ hop' _ _ => exact absurd (hop.symm.trans hop') (by decide)
      | both _ _ hfield' _ hargs' hbits' =>
          obtain ⟨rfl, hlow⟩ : high = _ ∧ l.bits &&& 0x1fff = m.bits &&& 0x1fff := by
            simpa [hargs] using hargs'
          have hupper : l.bits >>> 13 = m.bits >>> 13 := by simpa [hfield] using hfield'
          rw [← hbits, ← hbits', hupper, hlow]

/-- As many instructions as the float costs. -/
theorem Constructs.length (h : q.Constructs l ids id) (hk : l.kind = .float) :
    ids.length = l.cost := by
  cases h with
  | upper hlow =>
      have hlow' : l.low = 0 := hlow
      simp [Literal.cost, hk, hlow']
  | both hlow =>
      have hlow' : l.low ≠ 0 := hlow
      simp [Literal.cost, hk, hlow']

/-- The program `q` is `p` with its floats built in front: a list of these without repetitions, the
instructions that build each one, and the one of them that holds it and stands in its place. -/
structure Materialized (p q : Program) (floats : List Literal) (parts : Literal → List InstId)
    (holder : Literal → InstId) : Prop where
  nodup : floats.Nodup
  all : floats.toFinset = p.floats
  order : q.order = floats.flatMap parts ++ p.order
  constructs : ∀ l ∈ floats, q.Constructs l (parts l) (holder l)
  distinct : ∀ l ∈ floats, ∀ m ∈ floats, holder l = holder m → l = m
  placed : ∀ id ∈ p.order, ∀ (k : Nat) (l : Literal), l.kind = .float →
    (p.inst id).args[k]? = some (.literal l) → (q.inst id).args[k]? = some (.ref (holder l))

/-- The program has grown by the cost of its floats. -/
theorem Materialized.length {floats : List Literal} {parts : Literal → List InstId}
    {holder : Literal → InstId} (h : p.Materialized q floats parts holder) :
    q.order.length = p.order.length + ∑ l ∈ p.floats, l.cost := by
  have hcost : floats.map (fun l => (parts l).length) = floats.map Literal.cost := by
    refine List.map_congr_left fun l hl => (h.constructs l hl).length ?_
    rw [← List.mem_toFinset, h.all] at hl
    exact (mem_floats.mp hl).1
  rw [h.order, List.length_append, List.length_flatMap, hcost, ← h.all,
    List.sum_toFinset _ h.nodup, Nat.add_comm]

end Program

section Lowered

variable {p q : Program} {built : Built}

/-- A float in an instruction whose literals are encoded has been replaced, where it stood. -/
theorem Inst.LoweredTo.float_placed {i j : Inst} (h : i.LoweredTo built j) (henc : j.Encoded)
    (hmove : i.op = Opcode.move → i.args.length = 1) {k : Nat} {l : Literal}
    (hk : l.kind = .float) (hl : i.args[k]? = some (.literal l)) :
    ∃ r, (l, r) ∈ built ∧ j.args[k]? = some (.ref r) := by
  cases h with
  | upper hop hm hint hlow =>
      -- the moved integer is the only operand
      obtain ⟨v, hv⟩ := List.length_eq_one_iff.mp (hmove hop)
      have hfloat := List.mem_of_getElem? hl
      rw [hv, List.mem_singleton] at hm hfloat
      rw [← hm, Value.literal.injEq] at hfloat
      rw [hfloat, hint] at hk
      simp at hk
  | operands hop hargs =>
      obtain ⟨v, hv, hplaced, -⟩ := forall₂_set hargs.flip hl
      cases hplaced with
      | same => exact absurd ((henc l (List.mem_of_getElem? hv)).1.symm.trans hk) (by simp)
      | float _ hr => exact ⟨_, hr, hv⟩

/-- Where moves have one operand and the literals are encoded, the table is complete. -/
theorem Materializing.materialized (h : Materializing p (built, q))
    (hmoves : ∀ id ∈ p.order, (p.inst id).op = Opcode.move → (p.inst id).args.length = 1)
    (henc : ∀ id ∈ p.order, (q.inst id).Encoded) :
    ∃ floats parts holder, p.Materialized q floats parts holder := by
  have hkeys : (built.map Prod.fst).Nodup := h.keys
  set holder : Literal → InstId := fun l => (built.lookup l).getD .absent
  have hholder : ∀ e ∈ built, holder e.1 = e.2 := fun e he => by
    simp only [holder, lookup_of_mem hkeys he, Option.getD_some]
  have hplaced : ∀ id ∈ p.order, ∀ (k : Nat) (l : Literal), l.kind = .float →
      (p.inst id).args[k]? = some (.literal l) →
      (l, holder l) ∈ built ∧ (q.inst id).args[k]? = some (.ref (holder l)) := by
    intro id hid k l hk hl
    obtain ⟨r, hr, hget⟩ := (h.insts id hid).float_placed (henc id hid) (hmoves id hid) hk hl
    rw [show holder l = r from hholder _ hr]
    exact ⟨hr, hget⟩
  have hconstructs : ∀ l ∈ built.map Prod.fst,
      q.Constructs l (Program.parts l (holder l)) (holder l) := by
    intro l hl
    obtain ⟨e, he, rfl⟩ := List.mem_map.mp hl
    rw [hholder e he]
    exact (h.builds e he).constructs
  have hfloat : ∀ l ∈ built.map Prod.fst, l ∈ p.floats := by
    intro l hl
    obtain ⟨e, he, rfl⟩ := List.mem_map.mp hl
    exact h.floats e he
  refine ⟨built.map Prod.fst, fun l => Program.parts l (holder l), holder, hkeys, ?_, ?_,
    hconstructs, fun l hl m hm heq => ?_, fun id hid k l hk hl => (hplaced id hid k l hk hl).2⟩
  · ext l
    rw [List.mem_toFinset]
    refine ⟨hfloat l, fun hl => ?_⟩
    obtain ⟨hk, id, hid, hmem⟩ := Program.mem_floats.mp hl
    obtain ⟨k, hget⟩ := List.getElem?_of_mem hmem
    exact List.mem_map_of_mem (f := Prod.fst) (hplaced id hid k l hk hget).1
  · have hrows : built.flatMap (fun e => Program.parts e.1 e.2) =
        (built.map Prod.fst).flatMap fun l => Program.parts l (holder l) := by
      rw [List.flatMap_map]
      exact List.flatMap_congr fun e he => by rw [hholder e he]
    rw [← hrows]
    exact h.order
  · have hbits := (hconstructs l hl).bits_eq (heq ▸ hconstructs m hm)
    have hl' := (Program.mem_floats.mp (hfloat l hl)).1
    have hm' := (Program.mem_floats.mp (hfloat m hm)).1
    calc l = ⟨.float, l.bits⟩ := by rw [← hl']
      _ = ⟨.float, m.bits⟩ := by rw [hbits]
      _ = m := by rw [← hm']

/-- When the instructions of the source are encoded, the whole program is. -/
theorem Materializing.encoded (h : Materializing p (built, q))
    (henc : ∀ id ∈ p.order, (q.inst id).Encoded) : q.Encoded := by
  intro x hx
  rw [h.order] at hx
  rcases List.mem_append.mp hx with hx | hx
  · obtain ⟨e, he, hx⟩ := List.mem_flatMap.mp hx
    exact (h.builds e he).encoded x hx
  · exact henc x hx

end Lowered

/-! ## What lowering leaves alone -/

namespace Keeps

variable {γ : Type} {seen : Workspace → γ} (hs : Aside seen)

include hs

/-- Building a float keeps what stands aside from insertions. -/
theorem buildFloat (l : Literal) : Keeps seen (Straightline.buildFloat l) := by
  unfold Straightline.buildFloat
  split
  · exact .prepend hs _
  · exact .bind (.prepend hs _) fun _ => .bind (.prepend hs _) fun _ =>
      .bind (.editSlot hs.toAsideSlots _ fun _ => rfl) fun _ => .pure _

/-- Lowering an operand keeps what stands aside from insertions. -/
theorem lowerOperand (built : Built) (id : InstId) (position : Nat) (v : Value) :
    Keeps seen (Straightline.lowerOperand built id position v) := by
  match v with
  | .ref r => exact .pure _
  | .name s => exact .pure _
  | .literal ⟨.int, bits⟩ =>
      refine .bind (.editGet hs.toAsideSlots id _) fun r => ?_
      split
      · exact .pure _
      · exact .pure _
  | .literal ⟨.float, bits⟩ =>
      have hbuild : Keeps seen (materialize built ⟨.float, bits⟩) := by
        unfold materialize
        split
        · exact .pure _
        · exact .bind (.buildFloat hs _) fun _ => .bind (.report hs _) fun _ => .pure _
      exact .bind hbuild fun _ => .bind (.editSlot hs.toAsideSlots _ fun _ => rfl) fun _ => .pure _

/-- Lowering the operands of an instruction keeps what stands aside from insertions. -/
theorem lowerOperands (id : InstId) (count position : Nat) (built : Built) :
    Keeps seen (Straightline.lowerOperands id count position built) := by
  induction count generalizing position built with
  | zero => exact .pure _
  | succ count ih =>
      refine .bind (.readSlot id _) fun v => ?_
      split
      · exact .pure _
      · refine .bind (.lowerOperand hs built id position _) fun r => ?_
        split
        · exact .pure _
        · exact ih _ _

/-- Lowering from some place on keeps what stands aside from insertions. -/
theorem lowerFrom (steps : Nat) (start : Option InstId) (built : Built) :
    Keeps seen (Straightline.lowerFrom steps start built) := by
  induction steps generalizing start built with
  | zero =>
      cases start with
      | none => exact .pure _
      | some id => exact .throw _
  | succ steps ih =>
      cases start with
      | none => exact .pure _
      | some id =>
          have hinst : Keeps seen (lowerInst id built) :=
            .bind (.readSlot id _) fun count => .lowerOperands hs id count 0 built
          refine .bind hinst fun r => ?_
          split
          · exact .pure _
          · exact .bind (.readSlot id _) fun next => ih next _

/-- Lowering works on the program alone. -/
theorem lower : Keeps seen Straightline.lower := .bind .get fun _ => .lowerFrom hs _ _ _

end Keeps

/-! ## A whole run -/

/-- A run of lowering that succeeds has taken its steps to a program without unencoded literals. -/
theorem exists_materializing_of_lower {w w' : Workspace} {p : Program} (hw : w.store.Holds p)
    (hrun : lower w = .ok (.ok ()) w') : ∃ built q, w'.store.Holds q ∧
      Materializing p (built, q) ∧ ∀ id ∈ p.order, (q.inst id).Encoded := by
  rcases settles_lower hw.listed with ⟨e, q, hq, -⟩ | ⟨_, q, hq, -, built, hsteps, henc⟩
  · obtain ⟨w₁, hfail, -⟩ := hq w hw
    rw [hrun, EStateM.Result.ok.injEq] at hfail
    exact absurd hfail.1 (by simp)
  · obtain ⟨w₁, hdone, hholds⟩ := hq w hw
    rw [hrun, EStateM.Result.ok.injEq] at hdone
    obtain ⟨-, rfl⟩ := hdone
    exact ⟨built, q, hholds, hsteps.materializing hw.listed, henc⟩

/-- Where moves have one operand, lowering materializes every float of the program once. No literal
is left but integers on opcodes that take them, so that lowering once more changes nothing. -/
theorem floats_materialized_of_lower {w w' : Workspace} {p : Program} (hw : w.store.Holds p)
    (hmoves : ∀ id ∈ p.order, (p.inst id).op = Opcode.move → (p.inst id).args.length = 1)
    (hrun : lower w = .ok (.ok ()) w') :
    ∃ q floats parts holder, w'.store.Holds q ∧ p.Materialized q floats parts holder ∧
      q.order.length = p.order.length + ∑ l ∈ p.floats, l.cost ∧ q.Encoded ∧
      ∃ w'', lower w' = .ok (.ok ()) w'' ∧ w''.store = w'.store := by
  obtain ⟨built, q, hq, hmat, henc⟩ := exists_materializing_of_lower hw hrun
  obtain ⟨floats, parts, holder, hdone⟩ := hmat.materialized hmoves henc
  have hall := hmat.encoded henc
  obtain ⟨w'', hagain, hq'⟩ := computes_lower_of_encoded hq.listed hall w' hq
  exact ⟨q, floats, parts, holder, hq, hdone, hdone.length, hall, w'', hagain,
    hq.eq_of_temps_eq hq' ((Keeps.lower aside_temps).of_ok hagain)⟩

/-- Two floats, each used twice, next to integers that are encoded in place. -/
theorem floats_materialized_of_shared :
    let source := "a = add_f(0.1, 2.5)\nb = gt_i(0.1, 3)\nc = move(2.5)\nd = move(16384)\n"
    let lowered := "T_f_2_5 = lu_imm(131328)\nT_f_hi_0_1 = lu_imm(126566)\n" ++
      "T_f_0_1 = or_i_imm(T_f_hi_0_1, 3277)\na = add_f(T_f_0_1, T_f_2_5)\n" ++
      "b = gt_i_imm(T_f_0_1, 3)\nc = move(T_f_2_5)\nd = lu_imm(2)\n"
    ∃ w w' w'' floats parts holder, Source.load source.toUTF8.toList {} = .ok (.ok ()) w ∧
      lower w = .ok (.ok ()) w' ∧ w'.store.program.listing = lowered ∧
      w.store.program.Materialized w'.store.program floats parts holder ∧
      w'.store.program.order.length = 7 ∧ w'.store.program.Encoded ∧
      lower w' = .ok (.ok ()) w'' ∧ w''.store = w'.store := by
  intro source lowered
  have hruns : ∃ w ∈ after? (Source.load source.toUTF8.toList) {},
      (∀ id ∈ w.store.program.order, (w.store.program.inst id).op = Opcode.move →
        (w.store.program.inst id).args.length = 1) ∧
      w.store.program.order.length + ∑ l ∈ w.store.program.floats, l.cost = 7 ∧
      ∃ w' ∈ after? lower w, w'.store.program.listing = lowered := by
    decide +kernel
  obtain ⟨w, hread, hmoves, hcount, w', hdone, htext⟩ := hruns
  obtain ⟨_, hload⟩ := exists_of_after? hread
  obtain ⟨_, hlower⟩ := exists_of_after? hdone
  obtain ⟨q, floats, parts, holder, hq, hmat, hlength, henc, w'', hagain, hsame⟩ :=
    floats_materialized_of_lower (Source.loaded_of_load hload).fresh.holds hmoves hlower
  rw [← hq.program_eq] at hmat hlength henc
  exact ⟨w, w', w'', floats, parts, holder, hload, hlower, htext, hmat, hlength.trans hcount, henc,
    hagain, hsame⟩

/-! ## Other operands -/

/-- A move of an integer together with other operands. -/
def Inst.CrowdedMove (i : Inst) : Prop :=
  i.op = Opcode.move ∧ i.args.length ≠ 1 ∧ i.firstInteger?.isSome = true

instance (i : Inst) : Decidable i.CrowdedMove :=
  inferInstanceAs (Decidable (_ ∧ _ ∧ _))

/-- The instruction `j` has the operands of `i`, each in its place, with something else at most in
place of floats; a move of one integer has become the `lu_imm` of its upper bits. -/
structure Inst.KeepsOperands (i j : Inst) : Prop where
  length : j.args.length = i.args.length
  others : ∀ (k : Nat) (v : Value), i.args[k]? = some v → v.isLiteral = false →
    j.args[k]? = some v
  integers : ∀ (k : Nat) (l : Literal), i.args[k]? = some (.literal l) → l.kind = .int →
    j.args[k]? = some (.literal l) ∨ i.op = Opcode.move ∧ i.args = [.literal l] ∧ l.low = 0
  moved : ∀ l : Literal, i.op = Opcode.move → i.args = [.literal l] → l.kind = .int → l.low = 0 →
    j.op = Opcode.luImm ∧ j.args = [immediate l.high]

/-- Only a crowded move loses operands when it is lowered. -/
theorem Inst.LoweredTo.keepsOperands {built : Built} {i j : Inst} (h : i.LoweredTo built j)
    (henc : j.Encoded) (hmove : ¬ i.CrowdedMove) : i.KeepsOperands j := by
  cases h with
  | @upper l hop hl hk hlow =>
      have hone : i.args.length = 1 := by
        by_contra hne
        refine hmove ⟨hop, hne, ?_⟩
        rw [firstInteger?, List.find?_isSome]
        exact ⟨l, mem_literalsOf.mpr hl, by simpa using hk⟩
      obtain ⟨v, hv⟩ := List.length_eq_one_iff.mp hone
      obtain rfl : .literal l = v := by simpa [hv] using hl
      have honly : ∀ {k : Nat} {v : Value}, i.args[k]? = some v → v = .literal l := by
        intro k v hget
        simpa [hv] using List.mem_of_getElem? hget
      refine ⟨by simp [hone], fun k v hget hnot => ?_, fun k m hget _ => .inr ?_,
        fun m _ hm _ _ => ?_⟩
      · rw [honly hget] at hnot
        simp [Value.isLiteral] at hnot
      · obtain rfl := Value.literal.inj (honly hget)
        exact ⟨hop, hv, hlow⟩
      · obtain rfl : l = m := by simpa [hv] using hm
        exact ⟨rfl, rfl⟩
  | @operands op args hop hargs =>
      refine ⟨hargs.length_eq.symm, fun k v hget hnot => ?_, fun k l hget hk => .inl ?_,
        fun l hop' hone hk _ => ?_⟩
      · refine Value.Placed.kept hargs hget ?_
        rintro l rfl
        simp [Value.isLiteral] at hnot
      · refine Value.Placed.kept hargs hget ?_
        rintro m ⟨⟩
        exact hk
      · -- an integer that is left on a move would not be encoded
        have hleft : args[0]? = some (.literal l) := by
          refine Value.Placed.kept hargs (by simp [hone]) ?_
          rintro m ⟨⟩
          exact hk
        have hmoves : op = Opcode.move := by
          rcases hop with rfl | ⟨hform, -⟩
          · exact hop'
          · rw [hop'] at hform
            exact absurd hform (by decide)
        have himm := (henc l (List.mem_of_getElem? hleft)).2
        rw [show Opcode.isImmediate op = false by rw [hmoves]; decide] at himm
        simp at himm

/-- Lowering discards no operand, except where an integer is moved together with others: every other
instruction of the program is still there and has its operands. -/
theorem operands_kept_of_lower {w w' : Workspace} {p : Program} (hw : w.store.Holds p)
    (hrun : lower w = .ok (.ok ()) w') : ∃ q, w'.store.Holds q ∧ ∀ id ∈ p.order, id ∈ q.order ∧
      (¬ (p.inst id).CrowdedMove → (p.inst id).KeepsOperands (q.inst id)) := by
  obtain ⟨built, q, hq, hmat, henc⟩ := exists_materializing_of_lower hw hrun
  refine ⟨q, hq, fun id hid => ⟨?_, fun hmove => ?_⟩⟩
  · rw [hmat.order]
    exact List.mem_append_right _ hid
  · exact (hmat.insts id hid).keepsOperands (henc id hid) hmove

/-- Moves of names, of one integer and of a float, and integers next to references and floats. -/
theorem operands_kept_of_lowered_moves :
    let source := "T_0 = foo(0.1, c)\nx = move(a, T_0, 0.1)\ny = gt_i(x, 3, 2.5, T_0)\n" ++
      "z = move(16384)\n"
    let lowered := "T_f_2_5 = lu_imm(131328)\nT_f_hi_0_1 = lu_imm(126566)\n" ++
      "T_f_0_1 = or_i_imm(T_f_hi_0_1, 3277)\nT_0 = foo(T_f_0_1, c)\nx = move(a, T_0, T_f_0_1)\n" ++
      "y = gt_i_imm(x, 3, T_f_2_5, T_0)\nz = lu_imm(2)\n"
    ∃ w w', Source.load source.toUTF8.toList {} = .ok (.ok ()) w ∧ lower w = .ok (.ok ()) w' ∧
      w'.store.program.listing = lowered ∧ ∀ id ∈ w.store.program.order,
        (w.store.program.inst id).KeepsOperands (w'.store.program.inst id) := by
  intro source lowered
  have hruns : ∃ w ∈ after? (Source.load source.toUTF8.toList) {},
      (∀ id ∈ w.store.program.order, ¬ (w.store.program.inst id).CrowdedMove) ∧
      ∃ w' ∈ after? lower w, w'.store.program.listing = lowered := by
    decide +kernel
  obtain ⟨w, hread, hmoves, w', hdone, htext⟩ := hruns
  obtain ⟨_, hload⟩ := exists_of_after? hread
  obtain ⟨_, hlower⟩ := exists_of_after? hdone
  obtain ⟨q, hq, hkept⟩ :=
    operands_kept_of_lower (Source.loaded_of_load hload).fresh.holds hlower
  rw [← hq.program_eq] at hkept
  exact ⟨w, w', hload, hlower, htext, fun id hid => (hkept id hid).2 (hmoves id hid)⟩

/-- A move with a name and an integer becomes the `lu_imm` of the integer, and the name is gone. -/
theorem lower_discards_operand_of_move :
    ∃ w w', Source.load "x = move(a, 8192)\n".toUTF8.toList {} = .ok (.ok ()) w ∧
      lower w = .ok (.ok ()) w' ∧ w'.store.program.listing = "x = lu_imm(1)\n" ∧
      ∃ id ∈ w.store.program.order,
        ¬ (w.store.program.inst id).KeepsOperands (w'.store.program.inst id) := by
  have hruns : ∃ w ∈ after? (Source.load "x = move(a, 8192)\n".toUTF8.toList) {},
      ∃ w' ∈ after? lower w, w'.store.program.listing = "x = lu_imm(1)\n" ∧
        ⟨0⟩ ∈ w.store.program.order ∧ (w'.store.program.inst ⟨0⟩).args.length ≠
          (w.store.program.inst ⟨0⟩).args.length := by
    decide +kernel
  obtain ⟨w, hread, w', hdone, htext, hlive, hlength⟩ := hruns
  obtain ⟨_, hload⟩ := exists_of_after? hread
  obtain ⟨_, hlower⟩ := exists_of_after? hdone
  exact ⟨w, w', hload, hlower, htext, ⟨0⟩, hlive, fun hkept => hlength hkept.length⟩

end Straightline
