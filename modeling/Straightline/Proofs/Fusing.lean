import Straightline.Proofs.Preservation
import Straightline.Proofs.Rendering
import Straightline.Proofs.Runs

/-!
# Merging products into their consumers

A product that is merged into its consumer is computed where the consumer stands, and so its factors
are read there. This keeps the runs of a program in which no factor is written on the way
(`sameRuns_of_fusion`). The pass does not look for such writes, and where there is one the result
changes (`fusion_reads_overwritten_factor`).

The walk merges a product as it stood in the program that was read: what is still ahead has either
not been touched, or is itself the result of a merge, and then it is neither a product nor something
that takes one.
-/

set_option autoImplicit false

namespace Straightline

/-- Adds two operands, or subtracts one from the product `id`. -/
def Inst.TakesProduct (i : Inst) (id : InstId) : Prop :=
  i.args.length = 2 ∧ (i.op = Opcode.addF ∨ i.op = Opcode.subF ∧ i.args.head? = some (.ref id))

instance (i : Inst) (id : InstId) : Decidable (i.TakesProduct id) :=
  inferInstanceAs (Decidable (i.args.length = 2 ∧
    (i.op = Opcode.addF ∨ i.op = Opcode.subF ∧ i.args.head? = some (.ref id))))

/-- A consumer that is merged with a product takes the product. -/
theorem takesProduct_of_fuse? {id : InstId} {a b : Value} {i fused : Inst}
    (h : Fusion.fuse? id a b i = some fused) : i.TakesProduct id := by
  obtain ⟨y, ⟨hop, hargs | hargs, -⟩ | ⟨hop, hargs, -⟩⟩ := fuse?_eq_some h
  · exact ⟨by simp [hargs], .inl hop⟩
  · exact ⟨by simp [hargs], .inl hop⟩
  · exact ⟨by simp [hargs], .inr ⟨hop, by simp [hargs]⟩⟩

/-- The opcodes of merged products. -/
def fusedOps : List String := [Opcode.mulAddF, Opcode.mulSubF]

/-- A merged product has one of two opcodes. -/
theorem op_mem_fusedOps_of_fuse? {id : InstId} {a b : Value} {i fused : Inst}
    (h : Fusion.fuse? id a b i = some fused) : fused.op ∈ fusedOps := by
  obtain ⟨y, ⟨-, -, rfl⟩ | ⟨-, -, rfl⟩⟩ := fuse?_eq_some h
  · simp [fusedOps]
  · simp [fusedOps]

namespace Program

variable {V : Type*} {I : Interpretation V} {p q : Program} {id user : InstId}
  {rest : List InstId}

/-- No name that a product reads is written between the product and the consumer that takes it, if
that is its only one. -/
def FactorsKept (p : Program) : Prop :=
  ∀ id ∈ p.order, ∀ user ∈ p.order, (p.inst id).op = Opcode.mulF → (p.inst id).args.length = 2 →
    p.consumers id = [user] → (p.inst user).TakesProduct id →
    ∀ n ∈ namesOf (p.inst id).args, p.Unwritten n id user

instance (p : Program) : Decidable p.FactorsKept :=
  inferInstanceAs (Decidable (∀ id ∈ p.order, ∀ user ∈ p.order, (p.inst id).op = Opcode.mulF →
    (p.inst id).args.length = 2 → p.consumers id = [user] → (p.inst user).TakesProduct id →
    ∀ n ∈ namesOf (p.inst id).args, p.Unwritten n id user))

/-! ## One merge -/

/-- A consumer computes the same with the product merged into it, if no factor is written in
between. -/
theorem keepsResults_fuse {a b : Value} {fused : Inst} (hI : I.Fuses) (hq : q.Consistent)
    (hid : id ∈ q.order) (hu : user ∈ q.order)
    (hc : Fusion.candidate? (q.inst id) = some (a, b, user))
    (hf : Fusion.fuse? id a b (q.inst user) = some fused)
    (hkept : ∀ n, .name n ∈ (q.inst id).args → q.Unwritten n id user) :
    I.KeepsResults q (q.fuse id user a b fused) := by
  obtain ⟨hop, hargs, -⟩ := candidate?_eq_some hc
  obtain ⟨hpre, ht⟩ := hq.precedes_of_candidate hid hu hc
  refine .of_erase hq.nodup (hq.fuse hid hu hc hf).toValid (order_fuse _ _ _ _ _ _) ht
    (fun x _ => ?_) (fun s x _ => ?_)
  · rw [inst_fuse]
    by_cases hx : x = user
    · rw [if_pos hx, hx]
      exact (dst_uses_of_fuse? hf).1
    · rw [if_neg hx]
  · rw [inst_fuse]
    by_cases hx : x = user
    · subst hx
      rw [if_pos rfl]
      -- the product is what its factors give where the consumer stands
      have hproduct : (I.before q s x).values id =
          I.op Opcode.mulF [I.operand (I.before q s x) a, I.operand (I.before q s x) b] := by
        rw [Interpretation.values_before hq.nodup hpre,
          ← Interpretation.result_before hq.toValid hpre ht hkept, Interpretation.result, hop,
          hargs]
        rfl
      have hfused := Interpretation.result_of_fuse hI hf hproduct
      exact hfused
    · rw [if_neg hx]
      rfl

/-! ## The walk -/

/-- What holds at every visit: destinations are as they were, and what is still ahead has not been
touched or is a merged product. -/
structure Fusing (I : Interpretation V) (p : Program) (rest : List InstId) (q : Program) : Prop
    extends I.Walk p rest q where
  dst : ∀ x ∈ q.order, (q.inst x).dst = (p.inst x).dst
  untouched : ∀ x ∈ rest, x ∈ q.order →
    q.inst x = { p.inst x with uses := p.consumers x } ∨ (q.inst x).op ∈ fusedOps

theorem Fusing.start (hp : p.Valid) : Fusing I p p.order p.analyze where
  toWalk := .start hp
  dst x hx := by
    rw [order_analyze] at hx
    rw [inst_analyze hx]
  untouched x hx _ := .inl (inst_analyze hx)

theorem Fusing.tail (h : Fusing I p (id :: rest) q) : Fusing I p rest q where
  toWalk := h.toWalk.tail
  dst := h.dst
  untouched x hx := h.untouched x (List.mem_cons_of_mem id hx)

/-- A name that is not written between two instructions at first is not written there later. -/
theorem Fusing.unwritten (h : Fusing I p rest q) {n : String} {a b : InstId}
    (hw : p.Unwritten n a b) : q.Unwritten n a b := by
  intro y hy hay hyb hd
  have hyp := h.order.subset hy
  have hd' : p.Defines y n := (defines_iff_of_dst hyp hy (h.dst y hy)).mp hd
  exact hw y hyp (List.Sublist.trans hay h.order) (List.Sublist.trans hyb h.order) hd'

/-- Both the product and its consumer are as they were read. -/
theorem Fusing.kept (h : Fusing I p (id :: rest) q) (hn : p.order.Nodup) (hk : p.FactorsKept)
    {a b : Value} {fused : Inst} (hid : id ∈ q.order) (hu : user ∈ q.order)
    (hc : Fusion.candidate? (q.inst id) = some (a, b, user))
    (hf : Fusion.fuse? id a b (q.inst user) = some fused) :
    ∀ n, .name n ∈ (q.inst id).args → q.Unwritten n id user := by
  obtain ⟨hop, hargs, huses⟩ := candidate?_eq_some hc
  have htakes := takesProduct_of_fuse? hf
  have hpre := (h.consistent.precedes_of_candidate hid hu hc).1
  have hproduct : q.inst id = { p.inst id with uses := p.consumers id } := by
    refine (h.untouched id (by simp) hid).resolve_right fun hfused => ?_
    rw [hop] at hfused
    exact absurd hfused (by decide)
  have huser : q.inst user = { p.inst user with uses := p.consumers user } := by
    refine (h.untouched user (by simp [h.mem_rest hn hpre]) hu).resolve_right fun hfused => ?_
    rcases htakes.2 with hadd | ⟨hsub, -⟩
    · rw [hadd] at hfused
      exact absurd hfused (by decide)
    · rw [hsub] at hfused
      exact absurd hfused (by decide)
  rw [hproduct] at hop hargs huses
  rw [huser] at htakes
  intro n hread
  rw [hproduct] at hread
  refine h.unwritten (hk id (h.order.subset hid) user (h.order.subset hu) hop ?_ huses htakes n
    (mem_namesOf.mpr hread))
  rw [hargs]
  rfl

/-- Merging the visited product into its consumer keeps what holds at every visit. -/
theorem Fusing.fuse (h : Fusing I p (id :: rest) q) (hI : I.Fuses) (hn : p.order.Nodup)
    (hk : p.FactorsKept) {a b : Value} {fused : Inst} (hid : id ∈ q.order) (hu : user ∈ q.order)
    (hc : Fusion.candidate? (q.inst id) = some (a, b, user))
    (hf : Fusion.fuse? id a b (q.inst user) = some fused) :
    Fusing I p rest (q.fuse id user a b fused) := by
  have hq := h.consistent
  have hargs := (candidate?_eq_some hc).2.1
  have hresults := keepsResults_fuse hI hq hid hu hc hf (h.kept hn hk hid hu hc hf)
  have hmem : ∀ x ∈ (q.fuse id user a b fused).order, x ∈ q.order := fun x hx =>
    hresults.order.subset hx
  refine ⟨h.toWalk.step (hq.fuse hid hu hc hf) hresults.order (hresults.sameRuns hq.nodup),
    fun x hx => ?_, fun x hx hlive => ?_⟩
  · rw [inst_fuse]
    by_cases hxu : x = user
    · rw [if_pos hxu, hxu]
      exact (dst_uses_of_fuse? hf).1.trans (h.dst user hu)
    · rw [if_neg hxu]
      exact h.dst x (hmem x hx)
  · rw [inst_fuse]
    by_cases hxu : x = user
    · have hop := op_mem_fusedOps_of_fuse? hf
      rw [if_pos hxu]
      exact .inr hop
    · -- the factors stand before the product, so nothing ahead is one of them
      have hnone : [a, b].count (.ref x) = 0 := by
        rw [List.count_eq_zero, ← hargs]
        intro hr
        exact h.not_mem_rest hn (hq.refs id hid x hr).1 hx
      rw [if_neg hxu, hnone, Function.iterate_zero_apply]
      exact h.untouched x (List.mem_cons_of_mem id hx) (hmem x hlive)

/-- A visit keeps what holds at every visit. -/
theorem Fusing.step (h : Fusing I p (id :: rest) q) (hI : I.Fuses) (hn : p.order.Nodup)
    (hk : p.FactorsKept) (hid : id ∈ q.order) : Fusing I p rest (q.fuseAt id) := by
  unfold fuseAt
  split
  · exact h.tail
  · rename_i a b user hc
    split
    · rename_i hu
      split
      · exact h.tail
      · rename_i fused hf
        exact h.fuse hI hn hk hid hu hc hf
    · exact h.tail

/-- Fusion keeps the runs of a program if all factors are kept. -/
theorem walk_fusion (hI : I.Fuses) (hp : p.Valid) (hk : p.FactorsKept) :
    I.Walk p [] p.analyze.fusion := by
  refine (foldLive_induction_ahead (fun rest _ q => Fusing I p rest q) ?_ ?_
    p.analyze.order ?_).toWalk
  · intro id rest _ q h _
    exact h.tail
  · intro id rest _ q h hid
    exact h.step hI hp.nodup hk hid
  · rw [order_analyze]
    exact .start hp

end Program

/-- Merging the products of a program that was read and analysed keeps what every run leaves in the
names, if no factor is written between a product and the only consumer that can take it. -/
theorem sameRuns_of_fusion {V : Type*} {I : Interpretation V} {source : Source.Bytes}
    {w₀ w : Workspace} (hload : Source.load source w₀ = .ok (.ok ()) w) (hI : I.Fuses)
    (hkept : w.store.program.FactorsKept) :
    ∃ w', (do analyze; fusion) w = .ok () w' ∧
      w'.store.program.order.Sublist w.store.program.order ∧
      I.SameRuns w.store.program w'.store.program := by
  have hfresh := (Source.loaded_of_load hload).fresh
  have hclosed := (computes_analyze hfresh.valid.closed).2
  exact (Program.walk_fusion hI hfresh.valid hkept).exists_sameRuns hload
    (computes_apply .fusion hclosed).1

/-- Factors may be written after the consumer, and also before it if the consumer does not take the
product. -/
theorem sameRuns_of_fused_product :
    let source := "T_0 = mul_f(a, b)\nc = sub_f(c, a)\nz = add_f(T_0, c)\na = add_f(a, z)\n" ++
      "T_1 = mul_f(a, b)\nb = move(z)\ny = sub_f(c, T_1)\n"
    let output := "c = sub_f(c, a)\nz = muladd_f(a, b, c)\na = add_f(a, z)\n" ++
      "T_1 = mul_f(a, b)\nb = move(z)\ny = sub_f(c, T_1)\n"
    ∃ w w', Source.load source.toUTF8.toList {} = .ok (.ok ()) w ∧
      w.store.program.FactorsKept ∧ (do analyze; fusion) w = .ok () w' ∧
      w'.store.program.listing = output ∧
      Interpretation.words.SameRuns w.store.program w'.store.program := by
  intro source output
  have hruns : ∃ w ∈ after? (Source.load source.toUTF8.toList) {}, w.store.program.FactorsKept ∧
      ∃ w' ∈ left? (do analyze; fusion) w, w'.store.program.listing = output := by
    decide +kernel
  obtain ⟨w, hread, hkept, w', hdone, htext⟩ := hruns
  obtain ⟨_, hload⟩ := exists_of_after? hread
  obtain ⟨_, hfused⟩ := exists_of_left? hdone
  obtain ⟨w'', hrun, -, hsame⟩ :=
    sameRuns_of_fusion hload Interpretation.lawful_words.fuses hkept
  rw [hfused, EStateM.Result.ok.injEq] at hrun
  obtain ⟨-, rfl⟩ := hrun
  exact ⟨w, w', hload, hkept, hfused, htext, hsame⟩

/-- A factor that is written before the consumer: the product is computed from what was written. -/
theorem fusion_reads_overwritten_factor :
    let source := "T_0 = mul_f(a, b)\na = move(c)\nz = add_f(T_0, c)\n"
    let output := "a = move(c)\nz = muladd_f(a, b, c)\n"
    let words := Interpretation.words
    let s : State UInt32 := ⟨fun _ => 0, fun n => if n = "a" then 2 else if n = "b" then 3 else 5⟩
    ∃ w w', Source.load source.toUTF8.toList {} = .ok (.ok ()) w ∧ words.Fuses ∧
      (do analyze; fusion) w = .ok () w' ∧ w'.store.program.listing = output ∧
      (words.run w.store.program s).names "z" = 11 ∧
      (words.run w'.store.program s).names "z" = 20 := by
  intro source output words s
  have hruns : ∃ w ∈ after? (Source.load source.toUTF8.toList) {},
      ∃ w' ∈ left? (do analyze; fusion) w, w'.store.program.listing = output ∧
      (words.run w.store.program s).names "z" = 11 ∧
      (words.run w'.store.program s).names "z" = 20 := by decide +kernel
  obtain ⟨w, hread, w', hdone, htext, hbefore, hafter⟩ := hruns
  obtain ⟨_, hload⟩ := exists_of_after? hread
  obtain ⟨_, hfused⟩ := exists_of_left? hdone
  exact ⟨w, w', hload, Interpretation.lawful_words.fuses, hfused, htext, hbefore, hafter⟩

end Straightline
