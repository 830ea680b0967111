import Mathlib.Data.List.Basic
import Mathlib.Logic.Relation
import Straightline.Proofs.Consistency
import Straightline.Proofs.Encoding

/-!
# What lowering does

`LowerStep` lists what lowering does to a program while it walks over it: it builds a float at the
beginning, puts a reference to a built float in place of a literal, or encodes an integer operand.
The steps keep `Lowering`, which says where the built floats stand and how they are built
(`LowerStep.keeps`). Lowering always gives a result (`settles_lower`). It fails at the first
instruction whose first integer cannot be encoded (`Inst.offence?`); if there is none, it takes such
steps until every literal is an integer on an opcode that takes one in place. A program in which
that is so already is left as it is (`computes_lower_of_encoded`).

A reference to a built float is valid because everything that is built goes to the beginning, in
front of every instruction the walk will ever look at. The walk itself follows no references, so it
asks nothing of them: a listed program is enough.
-/

set_option autoImplicit false

namespace Straightline

/-- The literals of live instructions in program order, as often as they occur. -/
def Program.literals (p : Program) : List Literal :=
  p.order.flatMap fun id => literalsOf (p.inst id).args

/-- No operand is a float literal. -/
def Inst.FloatFree (i : Inst) : Prop := ∀ l, .literal l ∈ i.args → l.kind = .int

/-- No live instruction has a float literal. -/
def Program.FloatFree (p : Program) : Prop := ∀ id ∈ p.order, (p.inst id).FloatFree

/-- Every literal is an integer on an opcode that takes one in place. -/
def Inst.Encoded (i : Inst) : Prop :=
  ∀ l, .literal l ∈ i.args → l.kind = .int ∧ Opcode.isImmediate i.op = true

/-- The literals of live instructions are encoded. -/
def Program.Encoded (p : Program) : Prop := ∀ id ∈ p.order, (p.inst id).Encoded

/-- An encoded program has no floats. -/
theorem Program.Encoded.floatFree {p : Program} (h : p.Encoded) : p.FloatFree :=
  fun id hid l hl => (h id hid l hl).1

/-- The identity created right after this one. -/
def InstId.succ (id : InstId) : InstId := ⟨id.index + 1⟩

/-! ## Valid programs under the changes that lowering makes -/

namespace Program

/-- An instruction may change as long as its new references are valid ones. -/
theorem Valid.modify {p : Program} {id : InstId} {f : Inst → Inst} (h : p.Valid)
    (hdst : (f (p.inst id)).dst = (p.inst id).dst)
    (huses : (f (p.inst id)).uses = (p.inst id).uses)
    (hargs : id ∈ p.order → ∀ r, .ref r ∈ (f (p.inst id)).args →
      .ref r ∈ (p.inst id).args ∨ p.Precedes r id ∧ (p.inst r).isTemp = true) :
    (p.modify id f).Valid := by
  have hd : ∀ x, ((p.modify id f).inst x).dst = (p.inst x).dst := by
    intro x
    rw [inst_modify]
    split
    case isTrue e => rw [e, hdst]
    case isFalse => rfl
  refine ⟨h.nodup, h.known, fun x hx r hr => ?_, fun x hx u hu => ?_⟩
  · have hstep : p.Precedes r x ∧ (p.inst r).isTemp = true := by
      rw [inst_modify] at hr
      split at hr
      case isTrue e =>
        subst e
        rcases hargs hx r hr with hr | hr
        · exact h.refs x hx r hr
        · exact hr
      case isFalse => exact h.refs x hx r hr
    exact ⟨hstep.1, by rw [Inst.isTemp, hd]; exact hstep.2⟩
  · rw [inst_modify] at hu
    split at hu
    case isTrue e => exact h.uses x hx u (by rw [e, ← huses]; exact hu)
    case isFalse => exact h.uses x hx u hu

/-- A new instruction without references may stand at the beginning. -/
theorem Valid.prepend {p : Program} (h : p.Valid) {i : Inst} (hargs : ∀ r, .ref r ∉ i.args)
    (huses : i.uses = []) : (p.prepend i).Valid := by
  have hold : ∀ x ∈ p.order, (p.prepend i).inst x = p.inst x := fun x hx =>
    inst_prepend_of_ne i (ne_nextId_of_known (h.known x hx))
  have hnew : p.nextId ∉ p.order := fun hm => p.not_known_nextId (h.known _ hm)
  refine ⟨List.nodup_cons.mpr ⟨hnew, h.nodup⟩, fun x hx => ?_, fun x hx r hr => ?_,
    fun x hx u hu => ?_⟩
  · rw [known_prepend]
    rcases List.mem_cons.mp hx with hx | hx
    · exact .inr hx
    · exact .inl (h.known x hx)
  · rcases List.mem_cons.mp hx with rfl | hx
    · rw [inst_prepend_new] at hr
      exact absurd hr (hargs r)
    · rw [hold x hx] at hr
      obtain ⟨hpre, ht⟩ := h.refs x hx r hr
      exact ⟨hpre.prepend, by rw [hold r hpre.left_mem]; exact ht⟩
  · rw [known_prepend]
    rcases List.mem_cons.mp hx with rfl | hx
    · rw [inst_prepend_new, huses] at hu
      exact absurd hu (by simp)
    · rw [hold x hx] at hu
      exact .inl (h.uses x hx u hu)

/-! ## Building a float -/

/-- The instruction that sets the bits of a literal above the low field. -/
def highInst (dst : String) (l : Literal) : Inst :=
  { dst, op := Opcode.luImm, args := [immediate l.high] }

/-- The instruction that adds the low field of a literal to its upper bits. -/
def lowInst (l : Literal) (args : List Value) : Inst :=
  { dst := floatName l, op := Opcode.orIImm, args }

/-- Puts the instructions that build a float at the beginning, and gives the one that holds it. -/
def buildFloat (p : Program) (l : Literal) : InstId × Program :=
  if l.low = 0 then (p.nextId, p.prepend (highInst (floatName l) l))
  else
    let q := p.prepend (lowInst l [immediate l.low])
    (p.nextId, (q.prepend (highInst (floatHighName l) l)).modify p.nextId
      fun i => { i with args := [.ref q.nextId, immediate l.low] })

/-- The instruction `id` builds the literal, alone or together with the one created right after it.
-/
inductive Builds (p : Program) (l : Literal) (id : InstId) : Prop where
  | upper (hlow : l.low = 0) (hi : p.inst id = highInst (floatName l) l)
  | both (hlow : l.low ≠ 0) (hh : p.inst id.succ = highInst (floatHighName l) l)
      (hi : p.inst id = lowInst l [.ref id.succ, immediate l.low])

/-- The instructions that build a literal which `id` holds, in program order. -/
def parts (l : Literal) (id : InstId) : List InstId := if l.low = 0 then [id] else [id.succ, id]

theorem parts_of_low_eq {l : Literal} (h : l.low = 0) (id : InstId) : parts l id = [id] := by
  rw [parts, if_pos h]

theorem parts_of_low_ne {l : Literal} (h : l.low ≠ 0) (id : InstId) :
    parts l id = [id.succ, id] := by
  rw [parts, if_neg h]

theorem mem_parts {l : Literal} {id x : InstId} (h : x ∈ parts l id) : x = id ∨ x = id.succ := by
  unfold parts at h
  split at h
  · exact .inl (List.mem_singleton.mp h)
  · exact (List.mem_pair.mp h).symm

/-- Whether a literal is built is a matter of the instructions that build it. -/
theorem Builds.congr {p q : Program} {l : Literal} {id : InstId} (h : p.Builds l id)
    (hsame : ∀ x ∈ parts l id, q.inst x = p.inst x) : q.Builds l id := by
  cases h with
  | upper hlow h =>
      rw [parts_of_low_eq hlow] at hsame
      exact .upper hlow ((hsame id (by simp)).trans h)
  | both hlow hh h =>
      rw [parts_of_low_ne hlow] at hsame
      exact .both hlow ((hsame id.succ (by simp)).trans hh) ((hsame id (by simp)).trans h)

/-- What builds a literal holds immediates only. -/
theorem Builds.encoded {p : Program} {l : Literal} {id : InstId} (h : p.Builds l id) :
    ∀ x ∈ parts l id, (p.inst x).Encoded := by
  have hint : ∀ field, (immediate field) = .literal (.ofInt field.toNat) := fun _ => rfl
  have hhigh : ∀ dst, (highInst dst l).Encoded := by
    simp [Inst.Encoded, highInst, hint, Literal.ofInt, Opcode.isImmediate_luImm]
  intro x hx
  cases h with
  | upper hlow hi =>
      rw [parts_of_low_eq hlow, List.mem_singleton] at hx
      rw [hx, hi]
      exact hhigh _
  | both hlow hh hi =>
      rw [parts_of_low_ne hlow, List.mem_pair] at hx
      rcases hx with rfl | rfl
      · rw [hh]
        exact hhigh _
      · rw [hi]
        simp [Inst.Encoded, lowInst, hint, Literal.ofInt, Opcode.isImmediate_orIImm]

/-- What builds a float is a temporary. -/
theorem Builds.isTemp {p : Program} {l : Literal} {id : InstId} (h : p.Builds l id) :
    (p.inst id).isTemp = true := by
  have ht : Straightline.isTemp (floatName l) = true := by
    simp [Straightline.isTemp, floatName]
  cases h with
  | upper _ h => rw [h]; exact ht
  | both _ _ h => rw [h]; exact ht

theorem succ_nextId (p : Program) (i : Inst) : p.nextId.succ = (p.prepend i).nextId := by
  simp [InstId.succ, nextId]

theorem succ_ne (id : InstId) : id.succ ≠ id := by
  intro h
  have := congrArg InstId.index h
  simp only [InstId.succ] at this
  omega

section BuildFloat

variable {p : Program} (l : Literal)

/-- A float without a low field is its upper bits. -/
theorem buildFloat_of_low_eq (h : l.low = 0) :
    p.buildFloat l = (p.nextId, p.prepend (highInst (floatName l) l)) := by
  rw [buildFloat, if_pos h]

/-- A float with a low field is put together from two fields. -/
theorem buildFloat_of_low_ne (h : l.low ≠ 0) :
    p.buildFloat l = (p.nextId, ((p.prepend (lowInst l [immediate l.low])).prepend
      (highInst (floatHighName l) l)).modify p.nextId
        fun i => { i with args := [.ref p.nextId.succ, immediate l.low] }) := by
  rw [buildFloat, if_neg h, succ_nextId p (lowInst l [immediate l.low])]

theorem fst_buildFloat : (p.buildFloat l).1 = p.nextId := by
  by_cases h : l.low = 0
  · rw [buildFloat_of_low_eq l h]
  · rw [buildFloat_of_low_ne l h]

/-- What is built stands at the beginning, and nothing else is new. -/
theorem order_buildFloat_eq : (p.buildFloat l).2.order = parts l p.nextId ++ p.order := by
  by_cases h : l.low = 0
  · rw [buildFloat_of_low_eq l h, parts_of_low_eq h]
    rfl
  · rw [buildFloat_of_low_ne l h, parts_of_low_ne h, succ_nextId p (lowInst l [immediate l.low])]
    rfl

theorem size_buildFloat_eq :
    (p.buildFloat l).2.size = p.size + (parts l p.nextId).length := by
  by_cases h : l.low = 0
  · rw [buildFloat_of_low_eq l h, parts_of_low_eq h]
    rfl
  · rw [buildFloat_of_low_ne l h, parts_of_low_ne h]
    rfl

theorem size_buildFloat : p.size ≤ (p.buildFloat l).2.size := by
  rw [size_buildFloat_eq]
  omega

/-- Building a float changes no instruction that was there before. -/
theorem inst_buildFloat_of_known {x : InstId} (hx : p.Known x) :
    (p.buildFloat l).2.inst x = p.inst x := by
  have hne := ne_nextId_of_known hx
  by_cases h : l.low = 0
  · rw [buildFloat_of_low_eq l h]
    exact inst_prepend_of_ne _ hne
  · have hne' : x ≠ (p.prepend (lowInst l [immediate l.low])).nextId :=
      ne_nextId_of_known ((known_prepend p x _).mpr (.inl hx))
    rw [buildFloat_of_low_ne l h]
    rw [inst_modify_of_ne _ hne, inst_prepend_of_ne _ hne', inst_prepend_of_ne _ hne]

/-- The instruction that is given holds the float. -/
theorem builds_buildFloat : (p.buildFloat l).2.Builds l p.nextId := by
  by_cases h : l.low = 0
  · rw [buildFloat_of_low_eq l h]
    exact .upper h (by simp)
  · rw [buildFloat_of_low_ne l h]
    have hs := succ_nextId p (lowInst l [immediate l.low])
    refine .both h ?_ ?_
    · rw [inst_modify_of_ne _ (succ_ne _), hs, inst_prepend_new]
    · have hne : p.nextId ≠ (p.prepend (lowInst l [immediate l.low])).nextId := by
        rw [← hs]
        exact (succ_ne _).symm
      rw [inst_modify_self, inst_prepend_of_ne _ hne, inst_prepend_new]
      rfl

/-- The identities of what is built are new, and they exist afterwards. -/
theorem known_of_mem_parts {x : InstId} (hx : x ∈ parts l p.nextId) :
    p.size ≤ x.index ∧ (p.buildFloat l).2.Known x := by
  by_cases h : l.low = 0
  · rw [parts_of_low_eq h, List.mem_singleton] at hx
    subst hx
    simp only [Known, nextId, size_buildFloat_eq, parts_of_low_eq h, List.length_singleton]
    omega
  · rw [parts_of_low_ne h, List.mem_pair] at hx
    simp only [Known, size_buildFloat_eq, parts_of_low_ne h, List.length_cons, List.length_nil]
    rcases hx with rfl | rfl
    · simp only [InstId.succ, nextId]
      omega
    · simp only [nextId]
      omega

/-- What is built stands at the beginning, has new identities and holds immediates only. -/
theorem order_buildFloat : ∃ front, (p.buildFloat l).2.order = front ++ p.order ∧
    p.nextId ∈ front ∧ ∀ x ∈ front, ¬ p.Known x ∧ ((p.buildFloat l).2.inst x).Encoded := by
  refine ⟨parts l p.nextId, order_buildFloat_eq l, ?_, fun x hx => ⟨?_, ?_⟩⟩
  · unfold parts
    split <;> simp
  · have := (known_of_mem_parts l hx).1
    simp only [Known]
    omega
  · exact (builds_buildFloat l).encoded x hx

/-- The instructions after a float was built: the old ones, and one or two temporaries. -/
theorem mem_order_buildFloat {x : InstId} (hx : x ∈ (p.buildFloat l).2.order) :
    x ∈ p.order ∨ ((p.buildFloat l).2.inst x).isTemp = true ∧
      (x = p.nextId ∨ x = p.nextId.succ ∧
        (p.buildFloat l).2.inst p.nextId.succ = highInst (floatHighName l) l) := by
  have hbuilds := builds_buildFloat (p := p) l
  have htemp := hbuilds.isTemp
  cases hbuilds with
  | upper hlow _ =>
      rw [buildFloat_of_low_eq l hlow] at hx htemp ⊢
      rcases List.mem_cons.mp hx with rfl | hx
      · exact .inr ⟨htemp, .inl rfl⟩
      · exact .inl hx
  | both hlow hh _ =>
      rw [order_buildFloat_eq, parts_of_low_ne hlow] at hx
      rcases List.mem_cons.mp hx with rfl | hx
      · refine .inr ⟨?_, .inr ⟨rfl, hh⟩⟩
        rw [hh]
        simp [Inst.isTemp, Straightline.isTemp, highInst, floatHighName]
      · rcases List.mem_cons.mp hx with rfl | hx
        · exact .inr ⟨htemp, .inl rfl⟩
        · exact .inl hx

/-- What the instructions are after a float was built. -/
theorem inst_of_mem_buildFloat {x : InstId} (hx : x ∈ (p.buildFloat l).2.order) :
    x ∈ p.order ∨
      (l.low = 0 ∧ x = p.nextId ∧ (p.buildFloat l).2.inst x = highInst (floatName l) l) ∨
      (l.low ≠ 0 ∧ x = p.nextId.succ ∧
        (p.buildFloat l).2.inst x = highInst (floatHighName l) l) ∨
      (l.low ≠ 0 ∧ x = p.nextId ∧
        (p.buildFloat l).2.inst x = lowInst l [.ref p.nextId.succ, immediate l.low]) := by
  cases builds_buildFloat (p := p) l with
  | upper hlow hi =>
      rw [buildFloat_of_low_eq l hlow] at hx
      rcases List.mem_cons.mp hx with rfl | hx
      · exact .inr (.inl ⟨hlow, rfl, hi⟩)
      · exact .inl hx
  | both hlow hh hi =>
      rcases mem_order_buildFloat l hx with hx | ⟨-, rfl | ⟨rfl, -⟩⟩
      · exact .inl hx
      · exact .inr (.inr (.inr ⟨hlow, rfl, hi⟩))
      · exact .inr (.inr (.inl ⟨hlow, rfl, hh⟩))

/-- Building a float keeps a program valid. -/
theorem Valid.buildFloat (hp : p.Valid) : (p.buildFloat l).2.Valid := by
  by_cases h : l.low = 0
  · rw [buildFloat_of_low_eq l h]
    exact hp.prepend (by simp [highInst, immediate]) rfl
  · rw [buildFloat_of_low_ne l h]
    have hq := hp.prepend (i := lowInst l [immediate l.low]) (by simp [lowInst, immediate]) rfl
    have hq' := hq.prepend (i := highInst (floatHighName l) l) (by simp [highInst, immediate]) rfl
    dsimp only
    apply hq'.modify
    case hdst => rfl
    case huses => rfl
    intro _ r hr
    refine .inr ?_
    obtain rfl : r = p.nextId.succ := by simpa [immediate] using hr
    rw [succ_nextId p (lowInst l [immediate l.low])]
    refine ⟨nextId_precedes (by simp), ?_⟩
    rw [inst_prepend_new]
    simp [Inst.isTemp, Straightline.isTemp, highInst, floatHighName]

end BuildFloat

end Program

/-- Building a float succeeds. -/
theorem computes_buildFloat (p : Program) (l : Literal) :
    Computes (buildFloat l) p (p.buildFloat l).1 (p.buildFloat l).2 := by
  by_cases h : l.low = 0
  · rw [Program.buildFloat_of_low_eq l h, buildFloat, if_pos h]
    exact computes_prepend _
  · rw [Program.buildFloat_of_low_ne l h, buildFloat, if_neg h]
    refine (computes_prepend _).bind ((computes_prepend _).bind ?_)
    rw [← Program.succ_nextId]
    refine Computes.bind (computes_edit ?_ fun i =>
      { i with args := [.ref p.nextId.succ, immediate l.low] }) (computes_pure _)
    rw [Program.known_prepend, Program.known_prepend]
    exact .inl (.inr rfl)

/-! ## The steps of lowering -/

/-- What lowering the program `source` does, with the floats built so far. -/
inductive LowerStep (source : Program) : Built × Program → Built × Program → Prop where
  | build {built : Built} {p : Program} {id : InstId} {l : Literal} (hid : id ∈ source.order)
      (ha : .literal l ∈ (p.inst id).args) (hk : l.kind = .float) (hl : built.lookup l = none) :
      LowerStep source (built, p) ((l, (p.buildFloat l).1) :: built, (p.buildFloat l).2)
  | place {built : Built} {p : Program} {id r : InstId} {position : Nat} {l : Literal}
      (hid : id ∈ source.order) (ha : (p.inst id).args[position]? = some (.literal l))
      (hk : l.kind = .float) (hr : (l, r) ∈ built) :
      LowerStep source (built, p)
        (built, p.modify id fun i => { i with args := i.args.set position (.ref r) })
  | encode {built : Built} {p : Program} {id : InstId} {l : Literal} {i : Inst}
      (hid : id ∈ source.order) (ha : .literal l ∈ (p.inst id).args) (hk : l.kind = .int)
      (hi : encodeInteger l (p.inst id) = .ok i) :
      LowerStep source (built, p) (built, p.modify id fun _ => i)

/-- Any number of steps. -/
def LowerSteps (source : Program) : Built × Program → Built × Program → Prop :=
  Relation.ReflTransGen (LowerStep source)

/-- Lowering has turned the program `source` into another valid one. What it has added stands at the
beginning, and the floats are built as they should be. -/
structure Lowering (source : Program) (s : Built × Program) : Prop where
  valid : s.2.Valid
  size : source.size ≤ s.2.size
  order : source.order.IsSuffix s.2.order
  added : ∀ x ∈ s.2.order, x ∉ source.order → ¬ source.Known x ∧ (s.2.inst x).Encoded
  built : ∀ e ∈ s.1, s.2.Builds e.1 e.2 ∧ e.2 ∈ s.2.order ∧ e.2 ∉ source.order

namespace Lowering

variable {source p : Program} {built : Built}

theorem start (h : source.Valid) : Lowering source ([], source) where
  valid := h
  size := Nat.le_refl _
  order := List.suffix_refl _
  added x hx hn := absurd hx hn
  built := by simp

/-- What the source knows is known while it is lowered. -/
theorem known (h : Lowering source (built, p)) {id : InstId} (hk : source.Known id) :
    p.Known id := by
  have hsize : source.size ≤ p.size := h.size
  simp only [Program.Known] at hk ⊢
  omega

/-- What was added stands before what was there. -/
theorem precedes (h : Lowering source (built, p)) {x id : InstId} (hx : x ∈ p.order)
    (hn : x ∉ source.order) (hid : id ∈ source.order) : p.Precedes x id := by
  obtain ⟨front, hf⟩ := h.order
  have hx' : x ∈ front := by
    rw [← hf] at hx
    exact (List.mem_append.mp hx).resolve_right hn
  rw [Program.Precedes, ← hf]
  exact (List.singleton_sublist.mpr hx').append (List.singleton_sublist.mpr hid)

/-- Neither part of a built float is an instruction of the source. -/
theorem ne_of_built (h : Lowering source (built, p)) (hs : source.Valid) {e : Literal × InstId}
    (he : e ∈ built) {id : InstId} (hid : id ∈ source.order) : e.2 ≠ id ∧ e.2.succ ≠ id := by
  obtain ⟨-, hlive, hnew⟩ := h.built e he
  have hnot := (h.added e.2 hlive hnew).1
  have hk := h.valid.known e.2 hlive
  have hk' := hs.known id hid
  constructor
  · rintro rfl
    exact hnew hid
  · rintro rfl
    simp only [Program.Known, InstId.succ] at hnot hk hk'
    omega

/-- Changing an instruction of the source leaves what was built alone. -/
theorem modify (h : Lowering source (built, p)) (hs : source.Valid) {id : InstId}
    (hid : id ∈ source.order) {f : Inst → Inst} (hv : (p.modify id f).Valid) :
    Lowering source (built, p.modify id f) where
  valid := hv
  size := h.size
  order := h.order
  added x hx hn := by
    have hne : x ≠ id := fun e => hn (e ▸ hid)
    rw [Program.inst_modify_of_ne _ hne]
    exact h.added x hx hn
  built e he := by
    obtain ⟨hb, hlive, hnew⟩ := h.built e he
    obtain ⟨hne, hne'⟩ := h.ne_of_built hs he hid
    refine ⟨hb.congr fun x hx => Program.inst_modify_of_ne _ ?_, hlive, hnew⟩
    rcases Program.mem_parts hx with rfl | rfl
    · exact hne
    · exact hne'

/-- A float may be built at any time. -/
theorem build (h : Lowering source (built, p)) (hs : source.Valid) (l : Literal) :
    Lowering source ((l, (p.buildFloat l).1) :: built, (p.buildFloat l).2) := by
  obtain ⟨front, ho, hmem, hfront⟩ := Program.order_buildFloat (p := p) l
  have hold : ∀ x ∈ p.order, (p.buildFloat l).2.inst x = p.inst x := fun x hx =>
    Program.inst_buildFloat_of_known l (h.valid.known x hx)
  have hnew : ∀ x ∈ front, x ∉ source.order := fun x hx hm =>
    (hfront x hx).1 (h.known (hs.known x hm))
  refine ⟨h.valid.buildFloat l, Nat.le_trans h.size (Program.size_buildFloat l), ?_, ?_, ?_⟩
  · dsimp only
    rw [ho]
    exact h.order.trans (List.suffix_append _ _)
  · intro x hx hn
    dsimp only at hx ⊢
    rw [ho] at hx
    rcases List.mem_append.mp hx with hx | hx
    · exact ⟨fun hk => (hfront x hx).1 (h.known hk), (hfront x hx).2⟩
    · rw [hold x hx]
      exact h.added x hx hn
  · intro e he
    dsimp only
    rcases List.mem_cons.mp he with rfl | he
    · rw [Program.fst_buildFloat]
      exact ⟨Program.builds_buildFloat l, by rw [ho]; simp [hmem], hnew _ hmem⟩
    · obtain ⟨hb, hlive, hn⟩ := h.built e he
      refine ⟨?_, by rw [ho]; simp [hlive], hn⟩
      rcases hb with ⟨hlow, hi⟩ | ⟨hlow, hh, hi⟩
      · exact .upper hlow (by rw [hold e.2 hlive]; exact hi)
      · have href : .ref e.2.succ ∈ (p.inst e.2).args := by
          rw [hi]
          simp [Program.lowInst]
        have hpre := (h.valid.refs e.2 hlive e.2.succ href).1
        exact .both hlow (by rw [hold _ hpre.left_mem]; exact hh) (by rw [hold e.2 hlive]; exact hi)

end Lowering

/-- Every step leaves a valid program with the floats where they should be. -/
theorem LowerStep.keeps {source : Program} {s t : Built × Program} (hst : LowerStep source s t)
    (hs : source.Valid) (h : Lowering source s) : Lowering source t := by
  cases hst with
  | @build _ _ _ l _ _ _ _ => exact h.build hs l
  | @place built p id r position l hid ha hk hr =>
      obtain ⟨hb, hlive, hnew⟩ := h.built _ hr
      refine h.modify hs hid (h.valid.modify rfl rfl fun _ x hx => ?_)
      rcases List.mem_or_eq_of_mem_set hx with hx | hx
      · exact .inl hx
      · obtain rfl : x = r := by simpa using hx
        exact .inr ⟨h.precedes hlive hnew hid, hb.isTemp⟩
  | @encode built p id l i hid ha hk hi =>
      obtain ⟨hdst, huses, hargs⟩ := of_encodeInteger hi
      refine h.modify hs hid (h.valid.modify hdst huses fun _ x hx => .inl ?_)
      rcases hargs with hargs | hargs
      · rwa [hargs] at hx
      · rw [hargs] at hx
        exact absurd hx (by simp [immediate])

/-- A property of single instructions holds of all live ones after a step if it holds of those that
build floats and each change of an instruction keeps it. -/
theorem LowerStep.forall_inst {source : Program} {s t : Built × Program} (P : Inst → Prop)
    (hst : LowerStep source s t) (hl : Lowering source s)
    (hupper : ∀ l, l.kind = .float → P (Program.highInst (floatName l) l))
    (hhigh : ∀ l, l.kind = .float → P (Program.highInst (floatHighName l) l))
    (hlow : ∀ l, t.2 = (s.2.buildFloat l).2 → l.low ≠ 0 →
      P (Program.lowInst l [.ref s.2.nextId.succ, immediate l.low]))
    (hplace : ∀ i position l r, i.args[position]? = some (.literal l) → l.kind = .float → P i →
      P { i with args := i.args.set position (.ref r) })
    (hencode : ∀ l i i', .literal l ∈ i.args → l.kind = .int → encodeInteger l i = .ok i' →
      P i → P i')
    (h : ∀ x ∈ s.2.order, P (s.2.inst x)) : ∀ x ∈ t.2.order, P (t.2.inst x) := by
  intro x hx
  cases hst with
  | @build built p id l _ _ hk _ =>
      rcases Program.inst_of_mem_buildFloat l hx with
        hx | ⟨-, -, hi⟩ | ⟨-, -, hi⟩ | ⟨hne, -, hi⟩
      · dsimp only
        rw [Program.inst_buildFloat_of_known l (hl.valid.known x hx)]
        exact h x hx
      · exact hi ▸ hupper l hk
      · exact hi ▸ hhigh l hk
      · exact hi ▸ hlow l rfl hne
  | @place built p id r position l _ ha hk _ =>
      dsimp only
      rw [Program.inst_modify]
      split
      · rename_i hxid
        exact hplace _ position l r ha hk (hxid ▸ h x hx)
      · exact h x hx
  | @encode built p id l i _ ha hk hi =>
      dsimp only
      rw [Program.inst_modify]
      split
      · rename_i hxid
        exact hencode l _ i ha hk hi (hxid ▸ h x hx)
      · exact h x hx

/-- Steps of lowering keep a program valid and its floats built. -/
theorem LowerSteps.keeps {source : Program} {s t : Built × Program} (hst : LowerSteps source s t)
    (hs : source.Valid) (h : Lowering source s) : Lowering source t := by
  induction hst with
  | refl => exact h
  | tail _ hstep ih => exact hstep.keeps hs ih

/-! ## The walk -/

namespace Program

/-- The order has no repetitions and holds identities that exist. -/
structure Listed (p : Program) : Prop where
  nodup : p.order.Nodup
  known : ∀ id ∈ p.order, p.Known id

/-- A valid program is listed. -/
theorem Valid.listed {p : Program} (h : p.Valid) : p.Listed := ⟨h.nodup, h.known⟩

/-- The program `p` has everything that `source` has, its order at the end. -/
structure GrowsTo (source p : Program) : Prop where
  size : source.size ≤ p.size
  order : source.order.IsSuffix p.order

theorem GrowsTo.refl (p : Program) : p.GrowsTo p := ⟨Nat.le_refl _, List.suffix_refl _⟩

/-- A program that has grown knows what it knew. -/
theorem GrowsTo.known {source p : Program} (h : source.GrowsTo p) {id : InstId}
    (hk : source.Known id) : p.Known id := by
  have hsize := h.size
  simp only [Known] at hk ⊢
  omega

end Program

/-- A program that a store holds is listed. -/
theorem Store.Holds.listed {s : Store} {p : Program} (h : s.Holds p) : p.Listed :=
  ⟨h.nodup, h.known⟩

/-- A step of lowering only adds in front. -/
theorem LowerStep.growsTo {source : Program} {s t : Built × Program} (hst : LowerStep source s t)
    (h : source.GrowsTo s.2) : source.GrowsTo t.2 := by
  cases hst with
  | @build _ p _ l _ _ _ _ =>
      obtain ⟨front, ho, -, -⟩ := Program.order_buildFloat (p := p) l
      refine ⟨Nat.le_trans h.size (Program.size_buildFloat l), ?_⟩
      rw [ho]
      exact h.order.trans (List.suffix_append _ _)
  | place => exact ⟨h.size, h.order⟩
  | encode => exact ⟨h.size, h.order⟩

/-- Steps of lowering only add in front. -/
theorem LowerSteps.growsTo {source : Program} {s t : Built × Program}
    (hst : LowerSteps source s t) (h : source.GrowsTo s.2) : source.GrowsTo t.2 := by
  induction hst with
  | refl => exact h
  | tail _ hstep ih => exact hstep.growsTo ih

/-- A float is built unless it has been, and then it is in the table. -/
theorem computes_materialize {source p : Program} (built : Built) {id : InstId} {l : Literal}
    (hid : id ∈ source.order) (ha : .literal l ∈ (p.inst id).args) (hk : l.kind = .float) :
    ∃ t r, Computes (materialize built l) p (r, t.1) t.2 ∧ (l, r) ∈ t.1 ∧
      LowerSteps source (built, p) t ∧ ∀ x, p.Known x → t.2.Known x ∧ t.2.inst x = p.inst x := by
  unfold materialize
  cases hl : built.lookup l with
  | some r =>
      exact ⟨(built, p), r, computes_pure _, mem_of_lookup_eq_some hl, .refl,
        fun _ hx => ⟨hx, rfl⟩⟩
  | none =>
      refine ⟨((l, (p.buildFloat l).1) :: built, (p.buildFloat l).2), (p.buildFloat l).1, ?_,
        by simp, .single (.build hid ha hk hl),
        fun x hx => ⟨?_, Program.inst_buildFloat_of_known l hx⟩⟩
      · exact (computes_buildFloat p l).bind ((computes_report _).bind (computes_pure _))
      · have := Program.size_buildFloat (p := p) l
        simp only [Program.Known] at hx ⊢
        omega

/-- Among the first operands, `n` of them, literals are encoded. -/
def Inst.EncodedBelow (n : Nat) (i : Inst) : Prop :=
  ∀ k, k < n → ∀ l, i.args[k]? = some (.literal l) →
    l.kind = .int ∧ Opcode.isImmediate i.op = true

/-- An instruction whose first operands are encoded, all of them, is encoded. -/
theorem Inst.EncodedBelow.encoded {n : Nat} {i : Inst} (h : i.EncodedBelow n)
    (hn : i.args.length ≤ n) : i.Encoded := by
  intro l hl
  obtain ⟨k, hk, e⟩ := List.mem_iff_getElem.mp hl
  exact h k (by omega) l (by rw [List.getElem?_eq_getElem hk, e])

/-- An encoded instruction is encoded up to every position. -/
theorem Inst.Encoded.below {i : Inst} (h : i.Encoded) (n : Nat) : i.EncodedBelow n :=
  fun _ _ l hl => h l (List.mem_of_getElem? hl)

/-- What lowering has done when it has dealt with one instruction up to the position `n`. -/
structure LoweredBelow (source : Program) (id : InstId) (n : Nat) (s t : Built × Program) :
    Prop where
  steps : LowerSteps source s t
  encoded : (t.2.inst id).EncodedBelow n
  scanned : (source.inst id).Scanned (t.2.inst id) n
  shorter : (t.2.inst id).args.length ≤ (s.2.inst id).args.length
  others : ∀ x, s.2.Known x → x ≠ id → t.2.Known x ∧ t.2.inst x = s.2.inst x

/-- A part of lowering fails with an error as `failed` says, or succeeds and has done what `done`
says. -/
def Settles {α : Type} (x : Action (Except Unsupported α)) (p : Program)
    (failed : Unsupported → Prop) (done : α → Program → Prop) : Prop :=
  (∃ e q, Computes x p (.error e) q ∧ failed e) ∨ ∃ a q, Computes x p (.ok a) q ∧ done a q

/-- A part of lowering fails as unsupported, or succeeds and has done what `done` says. -/
def Lowers {α : Type} (x : Action (Except Unsupported α)) (p : Program)
    (done : α → Program → Prop) : Prop :=
  (∃ e q, Computes x p (.error e) q) ∨ ∃ a q, Computes x p (.ok a) q ∧ done a q

section Walk

variable {source p : Program} {built : Built} {id : InstId}

/-- An integer that can be encoded is encoded in place. -/
theorem computes_lowerInteger (hk : p.Known id) {l : Literal} {i : Inst}
    (hi : encodeInteger l (p.inst id) = .ok i) :
    Computes (lowerInteger id l) p (.ok ()) (p.modify id fun _ => i) := by
  have hrun : Computes (lowerInteger id l) p _ _ := computes_editGet hk _
  convert hrun using 1
  · rw [hi]
  · simp only [Program.modify, hi]

/-- Lowering an integer fails as the instruction offends, or deals with its position. -/
theorem settles_lowerInteger (built : Built) (hid : id ∈ source.order) (hk : p.Known id)
    {l : Literal} {position : Nat} (hl : l.kind = .int)
    (ha : (p.inst id).args[position]? = some (.literal l))
    (henc : (p.inst id).EncodedBelow position)
    (hscan : (source.inst id).Scanned (p.inst id) position) :
    Settles (lowerInteger id l) p (fun e => (source.inst id).offence? = some e) fun _ q =>
      LoweredBelow source id (position + 1) (built, p) (built, q) := by
  obtain ⟨herror, hok⟩ := hscan.integer ha hl
  cases hcode : encodeInteger l (p.inst id) with
  | error e =>
      have hrun : Computes (lowerInteger id l) p _ _ := computes_editGet hk _
      rw [hcode] at hrun
      exact .inl ⟨e, _, hrun, herror e hcode⟩
  | ok i' =>
      have hedit := computes_lowerInteger hk hcode
      obtain ⟨-, -, hargs⟩ := of_encodeInteger hcode
      have himm := isImmediate_of_encodeInteger hcode
      have hmem : .literal l ∈ (p.inst id).args := List.mem_of_getElem? ha
      refine .inr ⟨(), _, hedit, .single (.encode hid hmem hl hcode), ?_, ?_, ?_,
        fun x hx hne => ?_⟩
      · dsimp only
        rw [Program.inst_modify_self]
        rcases hargs with hargs | hargs
        · intro k hkp m hm
          rw [hargs] at hm
          refine ⟨?_, himm⟩
          by_cases hkp' : k = position
          · subst hkp'
            obtain rfl : l = m := by simpa [ha] using hm
            exact hl
          · exact (henc k (by omega) m hm).1
        · apply Inst.Encoded.below
          intro m hm
          rw [hargs] at hm
          obtain rfl : m = _ := by simpa [immediate] using hm
          exact ⟨rfl, himm⟩
      · dsimp only
        rw [Program.inst_modify_self]
        exact hok i' hcode
      · dsimp only
        rw [Program.inst_modify_self]
        rcases hargs with hargs | hargs
        · exact Nat.le_of_eq (congrArg List.length hargs)
        · rw [hargs]
          exact List.length_pos_of_mem hmem
      · exact ⟨hx, by dsimp only; rw [Program.inst_modify_of_ne _ hne]⟩

/-- Lowering an operand fails as the instruction offends, or deals with its position. -/
theorem settles_lowerOperand (built : Built) (hid : id ∈ source.order) (hk : p.Known id) {v : Value}
    {position : Nat} (ha : (p.inst id).args[position]? = some v)
    (henc : (p.inst id).EncodedBelow position)
    (hscan : (source.inst id).Scanned (p.inst id) position) :
    Settles (lowerOperand built id position v) p (fun e => (source.inst id).offence? = some e)
      fun built' q => LoweredBelow source id (position + 1) (built, p) (built', q) := by
  -- an operand that is no literal is left as it is
  have hskip : (∀ l, v ≠ .literal l) →
      LoweredBelow source id (position + 1) (built, p) (built, p) := by
    intro hv
    refine ⟨.refl, fun k hkp m hm => ?_, ?_, Nat.le_refl _, fun x hx _ => ⟨hx, rfl⟩⟩
    · by_cases hkp' : k = position
      · subst hkp'
        have : v = .literal m := by simpa [ha] using hm
        exact absurd this (hv m)
      · exact henc k (by omega) m hm
    · exact hscan.pass ha (fun l hl => absurd hl (hv l)) rfl rfl
  match v with
  | .ref r => exact .inr ⟨built, p, computes_pure _, hskip (by simp)⟩
  | .name s => exact .inr ⟨built, p, computes_pure _, hskip (by simp)⟩
  | .literal ⟨.int, bits⟩ =>
      rcases settles_lowerInteger built hid hk rfl ha henc hscan with
        ⟨e, q, hq, he⟩ | ⟨_, q, hq, hdone⟩
      · exact .inl ⟨e, q, hq.bind (computes_pure _), he⟩
      · exact .inr ⟨built, q, hq.bind (computes_pure _), hdone⟩
  | .literal ⟨.float, bits⟩ =>
      obtain ⟨⟨built', q⟩, r, hmat, hr, hsteps, hold⟩ :=
        computes_materialize built hid (List.mem_of_getElem? ha) rfl
      obtain ⟨hkq, hinst⟩ := hold id hk
      dsimp only at hmat hr hkq hinst
      have hplace : LowerStep source (built', q) (built', q.modify id
          fun i => { i with args := i.args.set position (.ref r) }) :=
        .place hid (by rw [hinst]; exact ha) rfl hr
      refine .inr ⟨built', _, hmat.bind ((computes_edit hkq _).bind (computes_pure _)),
        hsteps.tail hplace, fun k hkp m hm => ?_, ?_, ?_, fun x hx hne => ?_⟩
      · dsimp only at hm ⊢
        rw [Program.inst_modify_self, hinst] at hm ⊢
        by_cases hkp' : k = position
        · subst hkp'
          rw [List.getElem?_set] at hm
          simp at hm
        · rw [List.getElem?_set_ne (fun e => hkp' e.symm)] at hm
          exact henc k (by omega) m hm
      · dsimp only
        rw [Program.inst_modify_self, hinst]
        refine hscan.pass ha (fun l hl => ?_) rfl ?_
        · obtain rfl := Value.literal.inj hl
          rfl
        · exact List.drop_set_of_lt (Nat.lt_succ_self position)
      · dsimp only
        rw [Program.inst_modify_self, hinst]
        simp
      · obtain ⟨hx', hsame⟩ := hold x hx
        exact ⟨hx', by dsimp only; rw [Program.inst_modify_of_ne _ hne, hsame]⟩

/-- Operands that are dealt with one after the other are dealt with together. -/
theorem LoweredBelow.trans {n m : Nat} {s t u : Built × Program}
    (h₁ : LoweredBelow source id n s t) (h₂ : LoweredBelow source id m t u) :
    LoweredBelow source id m s u where
  steps := Relation.ReflTransGen.trans h₁.steps h₂.steps
  encoded := h₂.encoded
  scanned := h₂.scanned
  shorter := Nat.le_trans h₂.shorter h₁.shorter
  others x hx hne := by
    obtain ⟨hx', he⟩ := h₁.others x hx hne
    obtain ⟨hx'', he'⟩ := h₂.others x hx' hne
    exact ⟨hx'', he'.trans he⟩

/-- The operands from a position on. The list may become shorter on the way, never longer. -/
theorem settles_lowerOperands (hs : source.Listed) (hid : id ∈ source.order) (count : Nat) :
    ∀ (position : Nat) (built : Built) (p : Program), source.GrowsTo p →
      (p.inst id).EncodedBelow position → (source.inst id).Scanned (p.inst id) position →
      (p.inst id).args.length ≤ position + count →
      Settles (lowerOperands id count position built) p
        (fun e => (source.inst id).offence? = some e) fun built' q =>
          ∃ n, (q.inst id).args.length ≤ n ∧ LoweredBelow source id n (built, p) (built', q) := by
  induction count with
  | zero =>
      intro position built p _ henc hscan hlen
      exact .inr ⟨built, p, computes_pure _, position, hlen, .refl, henc, hscan, Nat.le_refl _,
        fun _ hx _ => ⟨hx, rfl⟩⟩
  | succ count ih =>
      intro position built p h henc hscan hlen
      have hk : p.Known id := h.known (hs.known id hid)
      have hread := computes_read hk (·.args[position]?)
      unfold lowerOperands
      cases ha : (p.inst id).args[position]? with
      | none =>
          rw [ha] at hread
          exact .inr ⟨built, p, hread.bind (computes_pure _), position,
            List.getElem?_eq_none_iff.mp ha, .refl, henc, hscan, Nat.le_refl _,
            fun _ hx _ => ⟨hx, rfl⟩⟩
      | some v =>
          rw [ha] at hread
          rcases settles_lowerOperand built hid hk ha henc hscan with
            ⟨e, q, hq, he⟩ | ⟨built', q, hq, hstep⟩
          · exact .inl ⟨e, q, hread.bind (hq.bind (computes_pure _)), he⟩
          · have hlen' : (q.inst id).args.length ≤ position + 1 + count := by
              have := hstep.shorter
              dsimp only at this
              omega
            rcases ih (position + 1) built' q (hstep.steps.growsTo h) hstep.encoded hstep.scanned
              hlen' with ⟨e, q', hq', he⟩ | ⟨built'', q', hq', n, hn, hrest⟩
            · exact .inl ⟨e, q', hread.bind (hq.bind hq'), he⟩
            · exact .inr ⟨built'', q', hread.bind (hq.bind hq'), n, hn, hstep.trans hrest⟩

/-- One instruction has its literals encoded, and no other instruction changes. -/
theorem settles_lowerInst (hs : source.Listed) (hid : id ∈ source.order) (h : source.GrowsTo p)
    (hsame : p.inst id = source.inst id) :
    Settles (lowerInst id built) p (fun e => (source.inst id).offence? = some e) fun built' q =>
      ∃ n, (q.inst id).args.length ≤ n ∧ LoweredBelow source id n (built, p) (built', q) := by
  have hread := computes_read (h.known (hs.known id hid)) (·.args.length)
  have henc : (p.inst id).EncodedBelow 0 := fun k hk => absurd hk (Nat.not_lt_zero k)
  have hscan : (source.inst id).Scanned (p.inst id) 0 := hsame ▸ .start _
  rcases settles_lowerOperands hs hid (p.inst id).args.length 0 built p h henc hscan (by omega) with
    ⟨e, q, hq, he⟩ | ⟨built', q, hq, hdone⟩
  · exact .inl ⟨e, q, hread.bind hq, he⟩
  · exact .inr ⟨built', q, hread.bind hq, hdone⟩

/-- The rest of the walk. What lies ahead does not change, since everything new goes to the
beginning. -/
theorem settles_lowerFrom (hs : source.Listed) (rest : List InstId) :
    ∀ (steps : Nat) (built : Built) (p : Program), source.GrowsTo p →
      (∀ x ∈ rest, p.inst x = source.inst x) → rest.IsSuffix source.order → rest.length ≤ steps →
      Settles (lowerFrom steps rest.head? built) p
        (fun e => rest.findSome? (fun x => (source.inst x).offence?) = some e) fun _ q =>
          rest.findSome? (fun x => (source.inst x).offence?) = none ∧
          ∃ built', LowerSteps source (built, p) (built', q) ∧
            (∀ x ∈ rest, (q.inst x).Encoded) ∧
            ∀ x, p.Known x → x ∉ rest → q.inst x = p.inst x := by
  induction rest with
  | nil =>
      intro steps built p _ _ _ _
      refine .inr ⟨(), p, ?_, rfl, built, .refl, by simp, fun _ _ _ => rfl⟩
      cases steps <;> exact computes_pure _
  | cons id rest ih =>
      intro steps built p h hahead hsuf hlen
      obtain ⟨done, hdone⟩ := hsuf
      have hid : id ∈ source.order := by simp [← hdone]
      have hnot : id ∉ rest := by
        have hn := hs.nodup
        rw [← hdone] at hn
        exact (List.nodup_cons.mp hn.of_append_right).1
      match steps, hlen with
      | steps + 1, hlen =>
        rcases settles_lowerInst hs hid h (hahead id (by simp)) with
          ⟨e, q, hq, he⟩ | ⟨built', q, hq, n, hn, hstep⟩
        · exact .inl ⟨e, q, hq.bind (computes_pure _), by rw [List.findSome?_cons, he]⟩
        · have hgrows := hstep.steps.growsTo h
          obtain ⟨front, hfront⟩ := hgrows.order
          have hsplit : q.order = (front ++ done) ++ id :: rest := by
            rw [List.append_assoc, hdone]
            exact hfront.symm
          have hnext := computes_next hsplit
          have hsuf' : rest.IsSuffix source.order := ⟨done ++ [id], by simp [← hdone]⟩
          have hahead' : ∀ x ∈ rest, q.inst x = source.inst x := by
            intro x hx
            have hxo : x ∈ source.order := hsuf'.subset hx
            have hne : x ≠ id := fun e => hnot (e ▸ hx)
            rw [(hstep.others x (h.known (hs.known x hxo)) hne).2]
            exact hahead x (by simp [hx])
          have hfine := hstep.scanned.offence?_eq_none hn
          have hfind : (id :: rest).findSome? (fun x => (source.inst x).offence?) =
              rest.findSome? fun x => (source.inst x).offence? := by
            rw [List.findSome?_cons, hfine]
          rw [hfind]
          rcases ih steps built' q hgrows hahead' hsuf' (by simpa using hlen) with
            ⟨e, q', hq', he⟩ | ⟨_, q', hq', hnone, built'', hsteps, henc, hsame⟩
          · exact .inl ⟨e, q', hq.bind (hnext.bind hq'), he⟩
          · have hidq : q'.inst id = q.inst id :=
              hsame id (hgrows.known (hs.known id hid)) hnot
            refine .inr ⟨(), q', hq.bind (hnext.bind hq'), hnone, built'',
              Relation.ReflTransGen.trans hstep.steps hsteps, ?_, ?_⟩
            · intro x hx
              rcases List.mem_cons.mp hx with rfl | hx
              · rw [hidq]
                exact hstep.encoded.encoded hn
              · exact henc x hx
            · intro x hx hn
              obtain ⟨hx', he⟩ := hstep.others x hx fun e => hn (by simp [e])
              rw [hsame x hx' fun hm => hn (by simp [hm]), he]

end Walk

/-- Lowering gives a result. It fails with the first unsupported integer of the program; if there is
none, it takes steps from the program to one in which the literals of these instructions are
encoded. -/
theorem settles_lower {p : Program} (hp : p.Listed) :
    Settles lower p (fun e => p.order.findSome? (fun x => (p.inst x).offence?) = some e) fun _ q =>
      p.order.findSome? (fun x => (p.inst x).offence?) = none ∧
      ∃ built, LowerSteps p ([], p) (built, q) ∧ ∀ x ∈ p.order, (q.inst x).Encoded := by
  have hstart : ∀ {r : Except Unsupported Unit} {q : Program},
      Computes (lowerFrom p.size p.order.head? []) p r q → Computes lower p r q := by
    intro r q h w hw
    have := h w hw
    rw [← hw.head, ← hw.size] at this
    exact this
  rcases settles_lowerFrom hp p.order p.size [] p (.refl p) (fun _ _ => rfl) (List.suffix_refl _)
    (Program.length_order_le hp.nodup hp.known) with
    ⟨e, q, hq, he⟩ | ⟨_, q, hq, hnone, built, hsteps, henc, -⟩
  · exact .inl ⟨e, q, hstart hq, he⟩
  · exact .inr ⟨(), q, hstart hq, hnone, built, hsteps, henc⟩

/-- Lowering a valid program gives a result. If it succeeds, it has taken steps from the program to
one in which every literal is encoded. -/
theorem computes_lower {p : Program} (hp : p.Valid) : Lowers lower p fun _ q =>
    ∃ built, LowerSteps p ([], p) (built, q) ∧ q.Encoded := by
  rcases settles_lower hp.listed with ⟨e, q, hq, -⟩ | ⟨_, q, hq, -, built, hsteps, henc⟩
  · exact .inl ⟨e, q, hq⟩
  · refine .inr ⟨(), q, hq, built, hsteps, fun x hx => ?_⟩
    by_cases hold : x ∈ p.order
    · exact henc x hold
    · exact ((hsteps.keeps hp (.start hp)).added x hx hold).2

/-! ## Programs that need no lowering -/

section Encoded

variable {p : Program} {id : InstId}

/-- Nothing is left to do at an operand of an encoded instruction. -/
theorem computes_lowerOperand_of_encoded (built : Built) (position : Nat) (hk : p.Known id)
    {v : Value} (hv : v ∈ (p.inst id).args) (h : (p.inst id).Encoded) :
    Computes (lowerOperand built id position v) p (.ok built) p := by
  match v with
  | .ref r => exact computes_pure _
  | .name s => exact computes_pure _
  | .literal ⟨.float, bits⟩ => exact absurd (h _ hv).1 (by simp)
  | .literal ⟨.int, bits⟩ =>
      have hrun := computes_lowerInteger hk (encodeInteger_of_isImmediate ⟨.int, bits⟩ (h _ hv).2)
      rw [Program.modify_eq_self rfl] at hrun
      exact hrun.bind (computes_pure _)

/-- Nothing is left to do at the operands of an encoded instruction. -/
theorem computes_lowerOperands_of_encoded (hk : p.Known id) (h : (p.inst id).Encoded)
    (count position : Nat) (built : Built) :
    Computes (lowerOperands id count position built) p (.ok built) p := by
  induction count generalizing position with
  | zero => exact computes_pure _
  | succ count ih =>
      have hread := computes_read hk (·.args[position]?)
      unfold lowerOperands
      cases ha : (p.inst id).args[position]? with
      | none =>
          rw [ha] at hread
          exact hread.bind (computes_pure _)
      | some v =>
          rw [ha] at hread
          have hoperand := computes_lowerOperand_of_encoded built position hk
            (List.mem_of_getElem? ha) h
          exact hread.bind (hoperand.bind (ih (position + 1)))

/-- Nothing is left to do in an encoded program. -/
theorem computes_lowerFrom_of_encoded (hp : p.Listed) (h : p.Encoded) (done rest : List InstId)
    (ho : p.order = done ++ rest) (steps : Nat) (hl : rest.length ≤ steps) (built : Built) :
    Computes (lowerFrom steps rest.head? built) p (.ok ()) p := by
  induction rest generalizing done steps with
  | nil => cases steps <;> exact computes_pure _
  | cons id rest ih =>
      have hid : id ∈ p.order := by simp [ho]
      have hk := hp.known id hid
      obtain ⟨steps, rfl⟩ : ∃ n, steps = n + 1 := ⟨steps - 1, by simp at hl; omega⟩
      have hinst : Computes (lowerInst id built) p (.ok built) p :=
        (computes_read hk (·.args.length)).bind
          (computes_lowerOperands_of_encoded hk (h id hid) _ 0 built)
      have hrest := ih (done ++ [id]) (by simp [ho]) steps (by simpa using hl)
      exact hinst.bind ((computes_next ho).bind hrest)

/-- Lowering has nothing to do where every literal is encoded. -/
theorem computes_lower_of_encoded (hp : p.Listed) (h : p.Encoded) :
    Computes lower p (.ok ()) p := by
  intro w hw
  have hrun := computes_lowerFrom_of_encoded hp h [] p.order rfl p.size
    (Program.length_order_le hp.nodup hp.known) [] w hw
  rw [← hw.head, ← hw.size] at hrun
  exact hrun

end Encoded

end Straightline
