import Straightline.Proofs.Materializing
import Straightline.Proofs.Naming
import Straightline.Proofs.Rereading

/-!
# Names of built floats

In the text of a program a reference is the name of a temporary, so a temporary that is defined a
second time captures the references to the first definition that stand after it. The passes define
no temporary twice unless the program did (`Program.Rewrite.tempsOnce`). Lowering makes up names for
the floats that it builds. They tell floats apart (`floatName_inj`, `floatName_ne_floatHighName`),
but nothing keeps the program from using them. If it uses none of the floats that are still there
when lowering begins (`Program.SparesFloatNames`), the text of the compiled program means the
compiled program (`listing_renumbers_of_compile`); if it does, the text may mean another one
(`listing_of_captured_reference`).
-/

set_option autoImplicit false

namespace Straightline

open Source

/-! ## The names that lowering makes up -/

/-- A name that lowering gives to an instruction that builds the float. -/
def Literal.IsBuiltAs (l : Literal) (n : String) : Prop :=
  n = floatName l ∨ l.low ≠ 0 ∧ n = floatHighName l

instance (l : Literal) (n : String) : Decidable (l.IsBuiltAs n) :=
  inferInstanceAs (Decidable (_ ∨ _))

/-- Different floats are built under different names. -/
theorem Literal.IsBuiltAs.inj {l m : Literal} {n : String} (h : l.IsBuiltAs n) (h' : m.IsBuiltAs n)
    (hk : l.kind = m.kind) (hl : l.Canonical) (hm : m.Canonical) : l = m := by
  rcases h with rfl | ⟨-, rfl⟩ <;> rcases h' with h' | ⟨-, h'⟩
  · exact floatName_inj hk hl hm h'
  · exact absurd h' (floatName_ne_floatHighName l m)
  · exact absurd h'.symm (floatName_ne_floatHighName m l)
  · exact floatHighName_inj hk hl hm h'

/-! ## Temporaries are defined once -/

namespace Program

variable {L : Literal → Prop} {p q : Program}

instance (p : Program) : Decidable p.TempsOnce :=
  inferInstanceAs (Decidable (∀ x ∈ p.order, ∀ y ∈ p.order, _ → _ → _))

/-- If every destination comes from an instruction of its own, no temporary is defined twice unless
one was. -/
theorem Origins.tempsOnce {f : InstId → InstId} (h : Origins p q f) (hp : p.TempsOnce) :
    q.TempsOnce := by
  intro x hx y hy ht hd
  rw [h.dst x hx, h.dst y hy] at hd
  refine h.inj x hx y hy (hp _ (h.mem x hx) _ (h.mem y hy) ?_ hd)
  rw [Inst.isTemp, ← h.dst x hx]
  exact ht

/-- A step of a pass does not define a temporary twice. -/
theorem Rewrite.tempsOnce (hr : Rewrite L p q) (hc : p.Consistent) (h : p.TempsOnce) :
    q.TempsOnce := by
  obtain ⟨f, hf⟩ := hr.origins hc
  exact hf.tempsOnce h

/-- Passes do not define a temporary twice. -/
theorem Rewrites.tempsOnce (hr : Rewrites L p q) (hc : p.Consistent) (h : p.TempsOnce) :
    q.TempsOnce :=
  hr.preserves TempsOnce (fun hstep hc hp => hstep.tempsOnce hc hp) hc h

/-- No live instruction has a name that lowering makes up for a float of the program. -/
def SparesFloatNames (p : Program) : Prop :=
  ∀ id ∈ p.order, ∀ l ∈ p.floats, ¬ l.IsBuiltAs (p.inst id).dst

instance (p : Program) : Decidable p.SparesFloatNames :=
  inferInstanceAs (Decidable (∀ id ∈ p.order, ∀ l ∈ p.floats, _))

/-- A phase of passes makes up no names, so it is enough that the program has no name of any float
before it. -/
theorem Consistent.sparesFloatNames_optimize (hc : p.Consistent)
    (h : ∀ id ∈ p.order, ∀ l : Literal, ¬ l.IsBuiltAs (p.inst id).dst) (pipeline : Pipeline) :
    (p.optimize pipeline).SparesFloatNames := by
  have hkept := (rewrites_optimize pipeline hc).preserves
    (fun q => ∀ id ∈ q.order, ∀ l : Literal, ¬ l.IsBuiltAs (q.inst id).dst) ?_ hc h
  · exact fun id hid l _ => hkept id hid l
  · intro p q hr hc hp x hx l hn
    obtain ⟨f, hf⟩ := hr.origins hc
    rw [hf.dst x hx] at hn
    exact hp _ (hf.mem x hx) l hn

/-- After a float was built, the new instructions have the names of the float. -/
theorem dst_of_mem_buildFloat {l : Literal} (hp : p.Valid) {x : InstId}
    (hx : x ∈ (p.buildFloat l).2.order) :
    (x ∈ p.order ∧ (p.buildFloat l).2.inst x = p.inst x) ∨
      (x = p.nextId ∧ ((p.buildFloat l).2.inst x).dst = floatName l) ∨
      (x = p.nextId.succ ∧ l.low ≠ 0 ∧ ((p.buildFloat l).2.inst x).dst = floatHighName l) := by
  rcases inst_of_mem_buildFloat l hx with hx | ⟨-, hnew, hi⟩ | ⟨hlow, hnew, hi⟩ | ⟨-, hnew, hi⟩
  · exact .inl ⟨hx, inst_buildFloat_of_known l (hp.known x hx)⟩
  · exact .inr (.inl ⟨hnew, by rw [hi]; rfl⟩)
  · exact .inr (.inr ⟨hnew, hlow, by rw [hi]; rfl⟩)
  · exact .inr (.inl ⟨hnew, by rw [hi]; rfl⟩)

end Program

open Program

/-- While the program `source` is lowered: no temporary is defined twice, and the names of one of
its floats are in use only if the float was built. -/
structure Uncaptured (source : Program) (s : Built × Program) : Prop where
  once : s.2.TempsOnce
  built : ∀ x ∈ s.2.order, ∀ l ∈ source.floats, l.Canonical → l.IsBuiltAs (s.2.inst x).dst →
    ∃ r, (l, r) ∈ s.1

/-- An instruction may change as long as it keeps its destination. -/
theorem Uncaptured.modify {source : Program} {built : Built} {p : Program}
    (h : Uncaptured source (built, p)) {id : InstId} {f : Inst → Inst}
    (hd : (f (p.inst id)).dst = (p.inst id).dst) : Uncaptured source (built, p.modify id f) := by
  have hdst : ∀ x, ((p.modify id f).inst x).dst = (p.inst x).dst := by
    intro x
    rw [inst_modify]
    split
    · rename_i hx
      rw [hx, hd]
    · rfl
  constructor
  · intro x hx y hy ht hxy
    dsimp only at hx hy ht hxy
    rw [hdst, hdst] at hxy
    rw [Inst.isTemp, hdst] at ht
    exact h.once x hx y hy ht hxy
  · intro x hx l hm hl hn
    dsimp only at hx hn
    rw [hdst] at hn
    exact h.built x hx l hm hl hn

/-- A float that was not built before gets names that nothing has. -/
theorem Uncaptured.build {source : Program} {built : Built} {p : Program}
    (h : Uncaptured source (built, p)) (hp : p.Valid) {l : Literal} (hm : l ∈ source.floats)
    (hl : l.Canonical) (hnew : built.lookup l = none) :
    Uncaptured source ((l, (p.buildFloat l).1) :: built, (p.buildFloat l).2) := by
  have hnot : ¬ ∃ r, (l, r) ∈ built := by
    rintro ⟨r, hr⟩
    have hne := List.lookup_eq_none_iff.mp hnew _ hr
    simp at hne
  have hfresh : ∀ x ∈ p.order, ¬ l.IsBuiltAs (p.inst x).dst := fun x hx hn =>
    hnot (h.built x hx l hm hl hn)
  have hne := floatName_ne_floatHighName l l
  constructor
  · intro x hx y hy ht hxy
    dsimp only at ht hxy
    rcases dst_of_mem_buildFloat hp hx with ⟨hxo, hix⟩ | ⟨rfl, hdx⟩ | ⟨rfl, hlow, hdx⟩
    · rw [hix] at ht hxy
      rcases dst_of_mem_buildFloat hp hy with ⟨hyo, hiy⟩ | ⟨rfl, hdy⟩ | ⟨rfl, hlow, hdy⟩
      · exact h.once x hxo y hyo ht (hxy.trans (congrArg Inst.dst hiy))
      · exact absurd (.inl (hxy.trans hdy)) (hfresh x hxo)
      · exact absurd (.inr ⟨hlow, hxy.trans hdy⟩) (hfresh x hxo)
    · rcases dst_of_mem_buildFloat hp hy with ⟨hyo, hiy⟩ | ⟨rfl, hdy⟩ | ⟨rfl, -, hdy⟩
      · rw [hiy] at hxy
        exact absurd (.inl (hxy.symm.trans hdx)) (hfresh y hyo)
      · rfl
      · exact absurd (hdx.symm.trans (hxy.trans hdy)) hne
    · rcases dst_of_mem_buildFloat hp hy with ⟨hyo, hiy⟩ | ⟨rfl, hdy⟩ | ⟨rfl, -, hdy⟩
      · rw [hiy] at hxy
        exact absurd (.inr ⟨hlow, hxy.symm.trans hdx⟩) (hfresh y hyo)
      · exact absurd (hdy.symm.trans (hxy.symm.trans hdx)) hne
      · rfl
  · intro x hx m hmm hcm hn
    dsimp only at hn ⊢
    have hkind : l.kind = m.kind := (mem_floats.mp hm).1.trans (mem_floats.mp hmm).1.symm
    -- a new name is one of the float that was built
    have hbuilt : l.IsBuiltAs ((p.buildFloat l).2.inst x).dst →
        ∃ r, (m, r) ∈ (l, (p.buildFloat l).1) :: built := by
      intro hself
      obtain rfl := hself.inj hn hkind hl hcm
      exact ⟨(p.buildFloat l).1, by simp⟩
    rcases dst_of_mem_buildFloat hp hx with ⟨hxo, hix⟩ | ⟨rfl, hdx⟩ | ⟨rfl, hlow, hdx⟩
    · rw [hix] at hn
      obtain ⟨r, hr⟩ := h.built x hxo m hmm hcm hn
      exact ⟨r, by simp [hr]⟩
    · exact hbuilt (.inl hdx)
    · exact hbuilt (.inr ⟨hlow, hdx⟩)

/-- A step of lowering captures no name. -/
theorem LowerStep.uncaptured {source : Program} {s t : Built × Program} (hst : LowerStep source s t)
    (hl : Lowering source s) (ht : Materializing source t) (hw : s.2.Writable)
    (h : Uncaptured source s) : Uncaptured source t := by
  cases hst with
  | @build built p id l hid ha hk hnew =>
      exact h.build hl.valid (ht.floats _ (List.mem_cons_self ..))
        (canonical_of_writable ((hw id (hl.order.subset hid)).operands _ ha)) hnew
  | place => exact h.modify rfl
  | encode _ _ _ hi => exact h.modify (of_encodeInteger hi).1

/-- A compilation defines no temporary twice if the program does not, and if nothing has a name of a
float that is there when lowering begins. -/
theorem Program.Compiled.tempsOnce {pipeline : Pipeline} {p q : Program}
    (h : Compiled pipeline p q) (hw : p.Writable) (hone : p.TempsOnce)
    (hs : (p.analyze.optimize pipeline).SparesFloatNames) : q.TempsOnce := by
  obtain ⟨hsource, hsteps, hvalid, -, rfl⟩ := h
  -- the first phase
  have hfirst := rewrites_optimize pipeline hsource.analyze
  have hc := hfirst.consistent hsource.analyze
  have hw₁ := hfirst.writable hsource.analyze hw.analyze
  have hone₁ := hfirst.tempsOnce hsource.analyze ((origins_analyze p).tempsOnce hone)
  -- lowering
  set source := p.analyze.optimize pipeline
  have hstart : Uncaptured source ([], source) :=
    ⟨hone₁, fun x hx l hm _ hn => absurd hn (hs x hx l hm)⟩
  have hlowered := hsteps.preserves
    (fun s => s.2.Writable ∧ Materializing source s ∧ Uncaptured source s)
    (fun hst hl ⟨hw, hm, hu⟩ =>
      have hm' := hst.materializing hc.toValid.listed hm
      ⟨hst.writable hl hw, hm', hst.uncaptured hl hm' hw hu⟩)
    hc.toValid (.start hc.toValid) ⟨hw₁, .start source, hstart⟩
  -- the second phase
  exact (rewrites_optimize pipeline hvalid.analyze).tempsOnce hvalid.analyze
    ((origins_analyze _).tempsOnce hlowered.2.2.once)

/-- Compiling a program that was read gives a result. If no temporary is defined twice, and none has
a name of a float that is there when lowering begins, then a compiled program has a listing, and
what one reads where its lines are not too long is the compiled program, renumbered. -/
theorem listing_renumbers_of_compile {source : Bytes} {w₀ w w₁ : Workspace}
    (hload : load source w₀ = .ok (.ok ()) w) (hw : w₁.store = w.store)
    (hone : w.store.program.TempsOnce) (rounds slots : Int)
    (hs : (w.store.program.analyze.optimize (.standard rounds slots)).SparesFloatNames) :
    ∃ r w', (Pipeline.standard rounds slots).compile w₁ = .ok r w' ∧
      (r = .ok () → ∃ text w₂, listing w' = .ok text w₂ ∧
        ((∀ line ∈ lines (ofText text), line.length < lineLimit) →
          ∀ w₃, ∃ w₄ f, load (ofText text) w₃ = .ok (.ok ()) w₄ ∧
            Renumbers w'.store.program w₄.store.program f)) := by
  obtain ⟨hfresh, r, w', hrun, hdone⟩ := compile_of_load hload hw (Pipeline.standard rounds slots)
  refine ⟨r, w', hrun, fun hr => ?_⟩
  obtain ⟨hholds, hfree, hcompiled⟩ := hdone hr
  have hvalid := hcompiled.consistent.toValid
  have hwritable := hcompiled.writable hfresh.writable
  obtain ⟨w₂, hlisting, -⟩ := computes_listing hvalid.closed w' hholds
  refine ⟨_, w₂, hlisting, fun hshort w₃ => ?_⟩
  obtain ⟨w₄, hreload, hsame, -, hnodup⟩ := hwritable.load_listing hvalid hfree hshort w₃
  obtain ⟨f, hf⟩ := hsame.renumbers hvalid hnodup (hcompiled.tempsOnce hfresh.writable hone hs)
  exact ⟨w₄, f, hreload, hf⟩

/-- A float that is used twice and one that is built in two steps, between temporaries. -/
theorem listing_renumbers_of_compiled_floats :
    let source := "T_a = mul_f(x, 2.5)\nT_f2_5 = add_f(T_a, 0.1)\nT_c = foo(T_f2_5, T_a)\n" ++
      "z = bar(T_c, T_f2_5, 2.5)\n"
    let output := "T_f_hi_0_1 = lu_imm(126566)\nT_f_0_1 = or_i_imm(T_f_hi_0_1, 3277)\n" ++
      "T_f_2_5 = lu_imm(131328)\nT_a = mul_f(x, T_f_2_5)\nT_f2_5 = add_f(T_a, T_f_0_1)\n" ++
      "T_c = foo(T_f2_5, T_a)\nz = bar(T_c, T_f2_5, T_f_2_5)\n"
    ∃ w w' w₂ w₃ f, load source.toUTF8.toList {} = .ok (.ok ()) w ∧
      (Pipeline.standard 2 0).compile w = .ok (.ok ()) w' ∧ listing w' = .ok output w₂ ∧
      load (ofText output) {} = .ok (.ok ()) w₃ ∧
      Renumbers w'.store.program w₃.store.program f := by
  intro source output
  have hruns : ∃ w ∈ after? (load source.toUTF8.toList) {}, w.store.program.TempsOnce ∧
      (w.store.program.analyze.optimize (.standard 2 0)).SparesFloatNames ∧
      ∃ w' ∈ after? (Pipeline.standard 2 0).compile w, output ∈ result? listing w' := by
    decide +kernel
  obtain ⟨w, hread, hone, hs, w', hdone, htext⟩ := hruns
  obtain ⟨_, hload⟩ := exists_of_after? hread
  obtain ⟨_, hcompile⟩ := exists_of_after? hdone
  obtain ⟨r, w'', hrun, hsame⟩ := listing_renumbers_of_compile hload rfl hone 2 0 hs
  rw [hcompile, EStateM.Result.ok.injEq] at hrun
  obtain ⟨rfl, rfl⟩ := hrun
  obtain ⟨text, w₂, hlisting, hback⟩ := hsame rfl
  obtain ⟨_, hlisting'⟩ := exists_of_result? htext
  rw [hlisting, EStateM.Result.ok.injEq] at hlisting'
  obtain ⟨rfl, -⟩ := hlisting'
  have hshort : ∀ line ∈ lines (ofText output), line.length < lineLimit := by decide +kernel
  obtain ⟨w₃, f, hreload, hf⟩ := hback hshort {}
  exact ⟨w, w', w₂, w₃, f, hload, hcompile, hlisting, hreload, hf⟩

/-- A temporary that has the name of a float: in the text of the compiled program, the reference to
the float reads as one to the temporary. -/
theorem listing_of_captured_reference :
    let source := "T_f_2_5 = foo(x)\nz = bar(2.5, T_f_2_5)\n"
    let output := "T_f_2_5 = lu_imm(131328)\nT_f_2_5 = foo(x)\nz = bar(T_f_2_5, T_f_2_5)\n"
    ∃ w w' w₂ w₃, load source.toUTF8.toList {} = .ok (.ok ()) w ∧ w.store.program.TempsOnce ∧
      (Pipeline.standard 1 0).compile w = .ok (.ok ()) w' ∧ listing w' = .ok output w₂ ∧
      (∀ line ∈ lines (ofText output), line.length < lineLimit) ∧
      load (ofText output) {} = .ok (.ok ()) w₃ ∧
      ¬ ∃ f, Renumbers w'.store.program w₃.store.program f := by
  intro source output
  have hruns : ∃ w ∈ after? (load source.toUTF8.toList) {}, w.store.program.TempsOnce ∧
      ∃ w' ∈ after? (Pipeline.standard 1 0).compile w, output ∈ result? listing w' ∧
      w'.store.program.order = [⟨2⟩, ⟨0⟩, ⟨1⟩] ∧
      (w'.store.program.inst ⟨1⟩).args = [.ref ⟨2⟩, .ref ⟨0⟩] ∧
      ∃ w₃ ∈ after? (load (ofText output)) {}, w₃.store.program.order = [⟨0⟩, ⟨1⟩, ⟨2⟩] ∧
      (w₃.store.program.inst ⟨2⟩).args = [.ref ⟨1⟩, .ref ⟨1⟩] := by decide +kernel
  obtain ⟨w, hread, hone, w', hdone, htext, horder, hargs, w₃, hreread, horder', hargs'⟩ := hruns
  obtain ⟨_, hload⟩ := exists_of_after? hread
  obtain ⟨_, hcompile⟩ := exists_of_after? hdone
  obtain ⟨w₂, hlisting⟩ := exists_of_result? htext
  obtain ⟨_, hreload⟩ := exists_of_after? hreread
  refine ⟨w, w', w₂, w₃, hload, hone, hcompile, hlisting, by decide +kernel, hreload, ?_⟩
  rintro ⟨f, hf⟩
  -- the first instruction stays the first one, and `z` no longer refers to it
  have hplaces := hf.order
  rw [horder, horder', List.map_cons, List.map_cons, List.map_cons] at hplaces
  simp only [List.cons.injEq] at hplaces
  obtain ⟨hfirst, -, hlast, -⟩ := hplaces
  have hrefs := hf.args ⟨1⟩ (by simp [horder])
  rw [← hlast, hargs', hargs, List.map_cons] at hrefs
  have href : Value.ref ⟨1⟩ = .ref (f ⟨2⟩) := (List.cons.inj hrefs).1
  rw [← hfirst] at href
  exact absurd href (by decide)

end Straightline
