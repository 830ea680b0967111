import Straightline.Proofs.Fusing

/-!
# Nothing is left to fuse

One sweep of fusion finds every product that can be merged (`no_fusable_of_fusion`), although each
merge gives the consumer another opcode, hands on use-set entries, and happens while the sweep is
still under way. A merge creates no product and nothing that takes one, since the opcodes of merged
products are neither, and it leaves every other instruction with as many consumers as before. So
what could not be merged when it was visited cannot be merged later (`Unfusable.fuse`), and a second
round finds nothing to do.

The visits go by the use-sets, `Program.Fusable` by the references themselves. The two agree because
the analysis leaves no entries of instructions that are gone, and a merge leaves none either
(`UsesLive.fuse`).
-/

set_option autoImplicit false

namespace Straightline

/-- What takes a product can be merged with it. -/
theorem exists_fuse?_of_takesProduct {i : Inst} {id : InstId} (a b : Value)
    (ht : i.TakesProduct id) (hr : .ref id ∈ i.args) :
    ∃ fused, Fusion.fuse? id a b i = some fused := by
  obtain ⟨x, y, hargs⟩ := List.length_eq_two.mp ht.1
  unfold Fusion.fuse?
  rcases ht.2 with hadd | ⟨hsub, hhead⟩
  · have hop : Fusion.fusedOp? i.op = some Opcode.mulAddF := by rw [hadd]; rfl
    rw [hop, hargs]
    by_cases hx : x = .ref id
    · exact ⟨_, if_pos hx⟩
    · have hy : y = .ref id := by
        rw [hargs] at hr
        simpa [eq_comm, hx] using hr
      exact ⟨_, (if_neg hx).trans (if_pos ⟨hy, hadd⟩)⟩
  · have hop : Fusion.fusedOp? i.op = some Opcode.mulSubF := by rw [hsub]; rfl
    have hx : x = .ref id := by simpa [hargs] using hhead
    rw [hop, hargs]
    exact ⟨_, if_pos hx⟩

namespace Program

variable {p q : Program} {id user : InstId} {rest : List InstId}

/-- A product of two operands with a single consumer, counted by operands, which adds two operands
or subtracts one from the product. -/
structure Fusable (p : Program) (id user : InstId) : Prop where
  live : id ∈ p.order
  product : (p.inst id).op = Opcode.mulF
  factors : (p.inst id).args.length = 2
  consumer : p.consumers id = [user]
  takes : (p.inst user).TakesProduct id

/-! ## Use-sets without entries of what is gone -/

/-- All entries of the use-sets are live instructions. -/
def UsesLive (p : Program) : Prop := ∀ id ∈ p.order, ∀ u ∈ (p.inst id).uses, u ∈ p.order

/-- After an analysis the use-sets hold live instructions only. -/
theorem usesLive_analyze (p : Program) : p.analyze.UsesLive := by
  intro id hid u hu
  rw [order_analyze] at hid ⊢
  rw [inst_analyze hid] at hu
  exact (mem_consumers_iff.mp hu).1

/-- The use-set of an instruction with a single consumer. -/
theorem UsesLive.uses_eq (h : p.UsesLive) (hp : p.Consistent) (hid : id ∈ p.order)
    (hc : p.consumers id = [user]) : (p.inst id).uses = [user] := by
  have hall : (p.inst id).uses.filter (· ∈ p.order) = (p.inst id).uses :=
    List.filter_eq_self.mpr fun u hu => by simpa using h id hid u hu
  have hperm := hp.perm_consumers hid
  rw [hall, hc] at hperm
  exact List.perm_singleton.mp hperm

/-- What is in a use-set after a merge was in it or is the consumer. -/
theorem mem_iterate_replaceUses {u : InstId} {n : Nat} {l : List InstId}
    (h : u ∈ (fun uses => replaceUses uses id [user])^[n] l) :
    u = user ∨ u ∈ l ∧ (u = id → n = 0) := by
  induction n generalizing l with
  | zero => exact .inr ⟨h, fun _ => rfl⟩
  | succ n ih =>
      rw [Function.iterate_succ_apply] at h
      rcases ih h with huser | ⟨hmem, -⟩
      · exact .inl huser
      · rcases List.mem_append.mp hmem with hold | hnew
        · obtain ⟨hl, hne⟩ := List.mem_filter.mp hold
          exact .inr ⟨hl, fun e => absurd e (by simpa using hne)⟩
        · exact .inl (List.mem_singleton.mp hnew)

/-! ## One visit -/

/-- The product of two operands has no consumer, several, or one that does not take it. -/
def Unfusable (p : Program) (id : InstId) : Prop :=
  ∀ user, (p.inst id).op = Opcode.mulF → (p.inst id).args.length = 2 →
    (p.inst id).uses = [user] → ¬ (p.inst user).TakesProduct id

/-- A visit does nothing, and then there is nothing to do, or it merges the product. -/
theorem fuseAt_cases (hq : q.Consistent) (hlive : q.UsesLive) (hid : id ∈ q.order) :
    q.fuseAt id = q ∧ q.Unfusable id ∨
      ∃ a b user fused, Fusion.candidate? (q.inst id) = some (a, b, user) ∧ user ∈ q.order ∧
        Fusion.fuse? id a b (q.inst user) = some fused ∧
        q.fuseAt id = q.fuse id user a b fused := by
  unfold fuseAt
  split
  · rename_i hnone
    refine .inl ⟨rfl, fun user hop hlen huses => ?_⟩
    obtain ⟨a, b, hargs⟩ := List.length_eq_two.mp hlen
    simp [Fusion.candidate?, hargs, huses, hop] at hnone
  · rename_i a b user hc
    obtain ⟨hop, hargs, huses⟩ := candidate?_eq_some hc
    have hu : user ∈ q.order := hlive id hid user (by simp [huses])
    rw [if_pos hu]
    split
    · rename_i hnone
      refine .inl ⟨rfl, fun user' _ _ huses' htakes => ?_⟩
      obtain rfl : user = user' := by simpa [huses] using huses'
      have hr : .ref id ∈ (q.inst user).args := by
        rw [← List.count_pos_iff, ← hq.count id hid user hu, huses]
        simp
      obtain ⟨fused, hf⟩ := exists_fuse?_of_takesProduct a b htakes hr
      rw [hf] at hnone
      exact absurd hnone (by simp)
    · rename_i fused hf
      exact .inr ⟨a, b, user, fused, hc, hu, hf, rfl⟩

section Fuse

variable {a b : Value} {fused : Inst} (hq : q.Consistent) (hid : id ∈ q.order)
  (hu : user ∈ q.order) (hc : Fusion.candidate? (q.inst id) = some (a, b, user))

include hq hid hu hc

/-- An entry that is the only one of its use-set after a merge, and is not the consumer, was the
only one before. -/
theorem uses_of_fuse {x user' : InstId} (hx : x ≠ user) (hu' : user' ≠ user)
    (h : ((q.fuse id user a b fused).inst x).uses = [user']) : (q.inst x).uses = [user'] := by
  have hne : user ≠ id := ((hq.precedes_of_candidate hid hu hc).1.ne hq.nodup).symm
  rw [inst_fuse, if_neg hx] at h
  dsimp only at h
  -- every entry that the merge replaces is the consumer afterwards, so it replaced none
  have hcount := count_iterate_replaceUses (u := user) hne hne ([a, b].count (.ref x))
    (q.inst x).uses
  have hzero : [a, b].count (.ref x) = 0 := by
    have hnot : [user'].count user = 0 := List.count_eq_zero.mpr (by simp [hu'.symm])
    rw [h, hnot, if_pos rfl] at hcount
    omega
  rwa [hzero, Function.iterate_zero_apply] at h

variable (hf : Fusion.fuse? id a b (q.inst user) = some fused)

include hf

/-- Merging a product keeps the use-sets live. -/
theorem UsesLive.fuse (hlive : q.UsesLive) : (q.fuse id user a b fused).UsesLive := by
  obtain ⟨-, hargs, -⟩ := candidate?_eq_some hc
  have hne : user ≠ id := ((hq.precedes_of_candidate hid hu hc).1.ne hq.nodup).symm
  intro x hx u hmem
  rw [order_fuse, hq.nodup.mem_erase_iff] at hx ⊢
  rw [inst_fuse] at hmem
  have hsame : (if x = user then fused else q.inst x).uses = (q.inst x).uses := by
    split
    case isTrue e => rw [e, (dst_uses_of_fuse? hf).2]
    case isFalse => rfl
  rw [hsame] at hmem
  rcases mem_iterate_replaceUses hmem with rfl | ⟨hold, hgone⟩
  · exact ⟨hne, hu⟩
  · refine ⟨fun e => ?_, hlive x hx.2 u hold⟩
    -- the product is an entry of its factors only, and there it was replaced
    have hzero : (q.inst id).args.count (.ref x) = 0 := by rw [hargs, hgone e]
    rw [← hq.count x hx.2 id hid, List.count_eq_zero] at hzero
    exact hzero (e ▸ hold)

/-- What cannot be merged before another product is merged cannot be merged after it. -/
theorem Unfusable.fuse {x : InstId} (h : q.Unfusable x) :
    (q.fuse id user a b fused).Unfusable x := by
  have hop := op_mem_fusedOps_of_fuse? hf
  intro user' hproduct hfactors honly htakes
  have hxu : x ≠ user := by
    rintro rfl
    rw [inst_fuse, if_pos rfl] at hproduct
    exact absurd (hproduct ▸ hop) (by decide)
  -- the consumer does not take products any more
  have huu : user' ≠ user := by
    rintro rfl
    rw [inst_fuse, if_pos rfl] at htakes
    rcases htakes.2 with hadd | ⟨hsub, -⟩
    · exact absurd (hadd ▸ hop) (by decide)
    · exact absurd (hsub ▸ hop) (by decide)
  have huses := uses_of_fuse hq hid hu hc hxu huu honly
  rw [inst_fuse, if_neg hxu] at hproduct hfactors
  rw [inst_fuse, if_neg huu] at htakes
  exact h user' hproduct hfactors huses htakes

end Fuse

/-! ## The sweep -/

/-- What holds at every visit: what is behind cannot be merged. -/
structure Saturated (rest : List InstId) (q : Program) : Prop where
  consistent : q.Consistent
  usesLive : q.UsesLive
  unfusable : ∀ x ∈ q.order, x ∉ rest → q.Unfusable x

/-- A product that is gone is passed over. -/
theorem Saturated.skip (h : Saturated (id :: rest) q) (hid : id ∉ q.order) : Saturated rest q where
  consistent := h.consistent
  usesLive := h.usesLive
  unfusable x hx hrest := by
    have hne : x ≠ id := fun e => hid (e ▸ hx)
    exact h.unfusable x hx (by simp [hne, hrest])

/-- What has been visited cannot be merged. -/
theorem Saturated.step (h : Saturated (id :: rest) q) (hid : id ∈ q.order) :
    Saturated rest (q.fuseAt id) := by
  have hq := h.consistent
  rcases fuseAt_cases hq h.usesLive hid with ⟨hsame, hstuck⟩ | ⟨a, b, user, fused, hc, hu, hf, he⟩
  · rw [hsame]
    refine ⟨hq, h.usesLive, fun x hx hrest => ?_⟩
    by_cases hxid : x = id
    · exact hxid ▸ hstuck
    · exact h.unfusable x hx (by simp [hxid, hrest])
  · rw [he]
    refine ⟨hq.fuse hid hu hc hf, h.usesLive.fuse hq hid hu hc hf, fun x hx hrest => ?_⟩
    rw [order_fuse, hq.nodup.mem_erase_iff] at hx
    exact (h.unfusable x hx.2 (by simp [hx.1, hrest])).fuse hq hid hu hc hf

/-- After fusion nothing can be merged. -/
theorem saturated_fusion (hp : p.Valid) : Saturated [] p.analyze.fusion := by
  refine foldLive_induction_ahead (fun rest _ q => Saturated rest q)
    (fun _ _ _ _ h hid => h.skip hid)
    (fun _ _ _ _ h hid => h.step hid) p.analyze.order ?_
  exact ⟨hp.analyze, usesLive_analyze p, fun x hx hnot => absurd hx hnot⟩

/-- After analysis and fusion there is no pair left. -/
theorem not_fusable_fusion (hp : p.Valid) (id user : InstId) :
    ¬ p.analyze.fusion.Fusable id user := by
  intro h
  have hs := saturated_fusion hp
  have huses := hs.usesLive.uses_eq hs.consistent h.live h.consumer
  exact hs.unfusable id h.live (by simp) user h.product h.factors huses h.takes

/-- Without such a pair, fusion changes nothing. -/
theorem fusion_of_not_fusable (hp : p.Valid) (h : ∀ id user, ¬ p.Fusable id user) :
    p.analyze.fusion = p.analyze := by
  refine sweep_of_fixed fun id hid => ?_
  rcases fuseAt_cases hp.analyze (usesLive_analyze p) hid with ⟨hsame, -⟩ |
    ⟨a, b, user, fused, hc, hu, hf, -⟩
  · exact hsame
  · obtain ⟨hop, hargs, huses⟩ := candidate?_eq_some hc
    have htakes := takesProduct_of_fuse? hf
    rw [order_analyze] at hid hu
    rw [inst_analyze hid] at hop hargs huses
    rw [inst_analyze hu] at htakes
    exact absurd ⟨hid, hop, congrArg List.length hargs, huses, htakes⟩ (h id user)

end Program

/-! ## The running code -/

/-- An analysis and fusion run on every valid program. -/
theorem computes_fusion_of_valid {p : Program} (hp : p.Valid) :
    Computes (do analyze; fusion) p () p.analyze.fusion :=
  have hclosed := (computes_analyze hp.closed).2
  (computes_apply .fusion hclosed).1.after_analyze hp.closed

/-- Analysing a program that was read and fusing its products leaves no product that could be fused.
Another round changes neither the order nor an instruction, use-sets apart. -/
theorem no_fusable_of_fusion {source : Source.Bytes} {w₀ w : Workspace}
    (hload : Source.load source w₀ = .ok (.ok ()) w) :
    ∃ w' w'', (do analyze; fusion) w = .ok () w' ∧
      (∀ id user, ¬ w'.store.program.Fusable id user) ∧
      (do analyze; fusion) w' = .ok () w'' ∧
      w''.store.program.order = w'.store.program.order ∧
      ∀ id, ∃ uses, w''.store.program.inst id = { w'.store.program.inst id with uses } := by
  obtain ⟨hholds, hvalid, -, -⟩ := (Source.loaded_of_load hload).fresh
  obtain ⟨w', hrun, hholds'⟩ := computes_fusion_of_valid hvalid w hholds
  have hnone := Program.not_fusable_fusion hvalid
  have hvalid' := (Program.saturated_fusion hvalid).consistent.toValid
  obtain ⟨w'', hagain, hholds''⟩ := computes_fusion_of_valid hvalid' w' hholds'
  rw [Program.fusion_of_not_fusable hvalid' hnone] at hholds''
  rw [← hholds'.program_eq] at hnone
  refine ⟨w', w'', hrun, hnone, hagain, ?_, fun id => ?_⟩
  · rw [hholds''.program_eq, hholds'.program_eq, Program.order_analyze]
  · rw [hholds''.program_eq, hholds'.program_eq]
    exact ⟨_, Program.inst_analyze_eq _ id⟩

/-- Products that share factors, a product that becomes a factor twice, one with two consumers of
which one is merged, and one on the wrong side of a subtraction. -/
theorem no_fusable_of_shared_factors :
    let source := "T_0 = mul_f(a, b)\nT_1 = add_f(c, T_0)\nT_2 = mul_f(T_1, T_1)\n" ++
      "z = sub_f(T_2, T_1)\nT_3 = mul_f(a, z)\nT_4 = mul_f(T_3, b)\ny = add_f(T_4, T_3)\n" ++
      "T_5 = mul_f(c, c)\nx = sub_f(d, T_5)\n"
    let output := "T_1 = muladd_f(a, b, c)\nz = mulsub_f(T_1, T_1, T_1)\nT_3 = mul_f(a, z)\n" ++
      "y = muladd_f(T_3, b, T_3)\nT_5 = mul_f(c, c)\nx = sub_f(d, T_5)\n"
    ∃ w w' w'', Source.load source.toUTF8.toList {} = .ok (.ok ()) w ∧
      (do analyze; fusion) w = .ok () w' ∧ w'.store.program.listing = output ∧
      (∀ id user, ¬ w'.store.program.Fusable id user) ∧
      (do analyze; fusion) w' = .ok () w'' ∧
      w''.store.program.order = w'.store.program.order := by
  intro source output
  have hruns : ∃ w ∈ after? (Source.load source.toUTF8.toList) {},
      ∃ w' ∈ left? (do analyze; fusion) w, w'.store.program.listing = output := by
    decide +kernel
  obtain ⟨w, hread, w', hdone, htext⟩ := hruns
  obtain ⟨_, hload⟩ := exists_of_after? hread
  obtain ⟨_, hfused⟩ := exists_of_left? hdone
  obtain ⟨_, w'', hrun, hnone, hagain, horder, -⟩ := no_fusable_of_fusion hload
  rw [hfused, EStateM.Result.ok.injEq] at hrun
  obtain ⟨-, rfl⟩ := hrun
  exact ⟨w, w', w'', hload, hfused, htext, hnone, hagain, horder⟩

end Straightline
