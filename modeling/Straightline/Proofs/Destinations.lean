import Mathlib.Data.List.Perm.Basic
import Straightline.Proofs.Outcome
import Straightline.Proofs.Tame

/-!
# Names that are written

A compilation neither loses a write to a name nor makes a second one out of it: as a multiset, the
names that live instructions write stay the same (`namedWrites_of_compile`). One step may take an
instruction out or let another one write in its place, but `Program.Origins` leads from the writers
after the step to all the writers before it. Lowering adds temporaries only.
-/

set_option autoImplicit false

namespace Straightline

namespace Program

variable {L : Literal → Prop} {p q : Program}

/-- The live instructions that write a name. -/
def writers (p : Program) : List InstId := p.order.filter fun id => !(p.inst id).isTemp

/-- The names that live instructions write, once for each of these instructions. -/
def namedWrites (p : Program) : List String := p.writers.map fun id => (p.inst id).dst

theorem mem_writers {id : InstId} :
    id ∈ p.writers ↔ id ∈ p.order ∧ (p.inst id).isTemp = false := by
  simp [writers]

/-! ## Steps of passes -/

/-- An instruction is a temporary if its origin is one. -/
theorem Origins.isTemp {f : InstId → InstId} (h : Origins p q f) {y : InstId} (hy : y ∈ q.order) :
    (q.inst y).isTemp = (p.inst (f y)).isTemp := by
  unfold Inst.isTemp
  rw [h.dst y hy]

/-- The origins of the writers are the writers before. -/
theorem Origins.writers {f : InstId → InstId} (h : Origins p q f) (hp : p.order.Nodup)
    (hq : q.order.Nodup) : (q.writers.map f).Perm p.writers := by
  have hinj : (q.writers.map f).Nodup := by
    refine List.Nodup.map_on ?_ (hq.filter _)
    intro x hx y hy hxy
    exact h.inj x (mem_writers.mp hx).1 y (mem_writers.mp hy).1 hxy
  have hnodup : p.writers.Nodup := hp.filter _
  rw [List.perm_ext_iff_of_nodup hinj hnodup]
  intro x
  constructor
  · intro hx
    obtain ⟨y, hy, rfl⟩ := List.mem_map.mp hx
    obtain ⟨hyo, ht⟩ := mem_writers.mp hy
    exact mem_writers.mpr ⟨h.mem y hyo, by rw [← h.isTemp hyo]; exact ht⟩
  · intro hx
    obtain ⟨hxo, ht⟩ := mem_writers.mp hx
    obtain ⟨y, hy, rfl⟩ := h.named x hxo ht
    exact List.mem_map.mpr ⟨y, mem_writers.mpr ⟨hy, by rw [h.isTemp hy]; exact ht⟩, rfl⟩

/-- The names that are written come from origins, each from one of its own. -/
theorem Origins.namedWrites {f : InstId → InstId} (h : Origins p q f) (hp : p.order.Nodup)
    (hq : q.order.Nodup) : q.namedWrites.Perm p.namedWrites := by
  have hdst : q.namedWrites = (q.writers.map f).map fun id => (p.inst id).dst := by
    unfold Program.namedWrites
    rw [List.map_map]
    exact List.map_congr_left fun y hy => h.dst y (mem_writers.mp hy).1
  rw [hdst]
  exact (h.writers hp hq).map _

/-- A step of a pass writes the same names. -/
theorem Rewrite.namedWrites (hr : Rewrite L p q) (h : p.Consistent) :
    q.namedWrites.Perm p.namedWrites := by
  obtain ⟨f, hf⟩ := hr.origins h
  exact hf.namedWrites h.nodup (hr.consistent h).nodup

/-- Passes write the same names. -/
theorem Rewrites.namedWrites (hr : Rewrites L p q) (h : p.Consistent) :
    q.namedWrites.Perm p.namedWrites :=
  hr.preserves (fun r => r.namedWrites.Perm p.namedWrites)
    (fun hstep hc hp => (hstep.namedWrites hc).trans hp) h (.refl _)

/-- An analysis changes no destination. -/
theorem namedWrites_analyze (h : p.Valid) : p.analyze.namedWrites.Perm p.namedWrites :=
  (origins_analyze p).namedWrites h.nodup h.analyze.nodup

/-! ## Steps of lowering -/

/-- Temporaries at the beginning do not count. -/
theorem namedWrites_of_front (front : List InstId) (ho : q.order = front ++ p.order)
    (ht : ∀ x ∈ front, (q.inst x).isTemp = true)
    (hd : ∀ x ∈ p.order, (q.inst x).dst = (p.inst x).dst) : q.namedWrites = p.namedWrites := by
  have hfront : front.filter (fun x => !(q.inst x).isTemp) = [] := by
    rw [List.filter_eq_nil_iff]
    intro x hx
    simp [ht x hx]
  have hwriters : q.writers = p.writers := by
    unfold writers
    rw [ho, List.filter_append, hfront, List.nil_append]
    refine List.filter_congr fun x hx => ?_
    unfold Inst.isTemp
    rw [hd x hx]
  unfold namedWrites
  rw [hwriters]
  exact List.map_congr_left fun x hx => hd x (mem_writers.mp hx).1

/-- Building a float writes temporaries only. -/
theorem namedWrites_buildFloat (h : p.Valid) (l : Literal) :
    (p.buildFloat l).2.namedWrites = p.namedWrites := by
  obtain ⟨front, ho, -, hfront⟩ := order_buildFloat (p := p) l
  refine namedWrites_of_front front ho (fun x hx => ?_) fun x hx => ?_
  · have hx' : x ∈ (p.buildFloat l).2.order := by simp [ho, hx]
    rcases mem_order_buildFloat l hx' with hold | ⟨ht, -⟩
    · exact absurd (h.known x hold) (hfront x hx).1
    · exact ht
  · rw [inst_buildFloat_of_known l (h.known x hx)]

/-- A change that keeps the destination keeps the names that are written. -/
theorem namedWrites_modify {id : InstId} {f : Inst → Inst}
    (hd : (f (p.inst id)).dst = (p.inst id).dst) :
    (p.modify id f).namedWrites = p.namedWrites := by
  refine namedWrites_of_front [] rfl (by simp) fun x _ => ?_
  rw [inst_modify]
  split
  · rename_i hx
    rw [hx, hd]
  · rfl

end Program

open Program

/-- A step of lowering keeps the names that are written. -/
theorem LowerStep.namedWrites {source : Program} {s t : Built × Program}
    (hst : LowerStep source s t) (hl : Lowering source s) : t.2.namedWrites = s.2.namedWrites := by
  cases hst with
  | @build _ _ _ l _ _ _ _ => exact namedWrites_buildFloat hl.valid l
  | place =>
      dsimp only
      apply namedWrites_modify
      rfl
  | encode _ _ _ hi =>
      dsimp only
      apply namedWrites_modify
      exact (of_encodeInteger hi).1

/-- A compilation keeps the names that are written. -/
theorem Program.Compiled.namedWrites {pipeline : Pipeline} {p q : Program}
    (h : Compiled pipeline p q) : q.namedWrites.Perm p.namedWrites := by
  refine h.preserves (fun r => r.namedWrites.Perm p.namedWrites) ?_ ?_ ?_ (.refl _)
  · exact fun hv hp => (namedWrites_analyze hv).trans hp
  · exact fun hstep hc hp => (hstep.namedWrites hc).trans hp
  · exact fun hstep hl hp => (List.Perm.of_eq (hstep.namedWrites hl)).trans hp

/-- Compiling a program that was read gives a result, and if it succeeds, the compiled program
writes the same names as often as the program. -/
theorem namedWrites_of_compile {source : Source.Bytes} {w₀ w w₁ : Workspace}
    (hload : Source.load source w₀ = .ok (.ok ()) w) (hw : w₁.store = w.store)
    (rounds slots : Int) :
    ∃ r w', (Pipeline.standard rounds slots).compile w₁ = .ok r w' ∧
      (r = .ok () → w'.store.program.namedWrites.Perm w.store.program.namedWrites) := by
  obtain ⟨-, r, w', hrun, hdone⟩ := compile_of_load hload hw (Pipeline.standard rounds slots)
  exact ⟨r, w', hrun, fun hr => (hdone hr).2.2.namedWrites⟩

/-- A name that is written twice and read in between, a product whose consumer takes it over, and a
move that hands its destination to a temporary. -/
theorem namedWrites_of_compiled_rewrites :
    let source := "z = add_f(x, y)\nT_a = mul_f(z, 2.5)\nz = add_f(T_a, z)\n" ++
      "T_b = sub_f(z, x)\nv = move(T_b)\nT_c = div_f(v, 4.0)\nu = gt_i(v, 3)\n"
    ∃ w w', Source.load source.toUTF8.toList {} = .ok (.ok ()) w ∧
      (Pipeline.standard 2 5).compile w = .ok (.ok ()) w' ∧
      w'.store.program.namedWrites.Perm w.store.program.namedWrites ∧
      w.store.program.namedWrites = ["z", "z", "v", "u"] := by
  intro source
  have hruns : ∃ w ∈ after? (Source.load source.toUTF8.toList) {},
      w.store.program.namedWrites = ["z", "z", "v", "u"] ∧
        ∃ w' ∈ after? (Pipeline.standard 2 5).compile w, True := by decide +kernel
  obtain ⟨w, hread, hwrites, w', hdone, -⟩ := hruns
  obtain ⟨_, hload⟩ := exists_of_after? hread
  obtain ⟨_, hcompile⟩ := exists_of_after? hdone
  obtain ⟨r, w'', hrun, hsame⟩ := namedWrites_of_compile hload rfl 2 5
  rw [hcompile, EStateM.Result.ok.injEq] at hrun
  obtain ⟨rfl, rfl⟩ := hrun
  exact ⟨w, w', hload, hcompile, hsame rfl, hwrites⟩

end Straightline
