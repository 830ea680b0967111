import Mathlib.Logic.Function.Iterate
import Straightline.Pipeline
import Straightline.Proofs.Lowered
import Straightline.Proofs.Rewrites

/-!
# The phases of a compilation

A phase of optimisation takes a consistent program by steps of the passes to another one
(`computes_optimize`). A compilation is such a phase, lowering, an analysis and a second phase
(`computes_compile`): it fails only as unsupported, and if it succeeds then no float literal is
left, because lowering removes them all and no step of a pass brings one back.

A phase lifts costly literals only (`rewrites_optimize`). What each of its passes lifts depends on
the program that it meets (`rewrites_passes`).

`Program.Compiled` is what a compilation has done to a program when it succeeds, and
`Program.Compiled.preserves` the induction over it: what an analysis, every step of a pass and every
step of lowering keep, a compilation keeps.
-/

set_option autoImplicit false

namespace Straightline

namespace Program

variable {L : Literal → Prop}

/-- One round of passes. -/
def runStages (p : Program) (stages : List Stage) : Program :=
  stages.foldl (fun q s => q.apply s.pass) p

/-- One phase of optimisation. -/
def optimize (p : Program) (pipeline : Pipeline) : Program :=
  (fun q => q.runStages pipeline.stages)^[pipeline.rounds.toNat] p

/-- One round is a chain of steps. -/
theorem rewrites_runStages (stages : List Stage) {p : Program} (h : p.Consistent) :
    Rewrites Literal.Costly p (p.runStages stages) := by
  induction stages generalizing p with
  | nil => exact .refl
  | cons s stages ih =>
      have hs := rewrites_apply s.pass h
      exact Relation.ReflTransGen.trans hs (ih (hs.consistent h))

/-- Several rounds are such a chain. -/
theorem rewrites_rounds (stages : List Stage) (count : Nat) {p : Program} (h : p.Consistent) :
    Rewrites Literal.Costly p ((fun q => q.runStages stages)^[count] p) := by
  induction count generalizing p with
  | zero => exact .refl
  | succ count ih =>
      rw [Function.iterate_succ_apply]
      have hr := rewrites_runStages stages h
      exact Relation.ReflTransGen.trans hr (ih (hr.consistent h))

/-- A phase is a chain of steps that lift costly literals only. -/
theorem rewrites_optimize (pipeline : Pipeline) {p : Program} (h : p.Consistent) :
    Rewrites Literal.Costly p (p.optimize pipeline) :=
  rewrites_rounds pipeline.stages _ h

/-- A phase keeps a program consistent. -/
theorem Consistent.optimize {p : Program} (h : p.Consistent) (pipeline : Pipeline) :
    (p.optimize pipeline).Consistent :=
  (rewrites_optimize pipeline h).consistent h

/-- No step of a pass brings a float literal into a program that has none. -/
theorem Rewrite.floatFree {p q : Program} (hr : Rewrite L p q) (hp : p.Consistent)
    (h : p.FloatFree) : q.FloatFree := by
  intro x hx l hl
  cases hr.derived hp hx hl with
  | kept hread =>
      obtain ⟨y, hy, -, hread⟩ := hread
      exact h y hy l hread
  | inverted hread =>
      -- a reciprocal needs a float literal in the first place
      obtain ⟨y, hy, -, hread⟩ := hread
      exact absurd (h y hy _ hread) (by simp)

/-- Passes bring no float literal into a program that has none. -/
theorem Rewrites.floatFree {p q : Program} (hr : Rewrites L p q) (hp : p.Consistent)
    (h : p.FloatFree) : q.FloatFree := by
  induction hr with
  | refl => exact h
  | tail hpq hstep ih => exact hstep.floatFree (Rewrites.consistent hpq hp) ih

theorem FloatFree.analyze {p : Program} (h : p.FloatFree) : p.analyze.FloatFree := by
  intro x hx
  rw [order_analyze] at hx
  rw [inst_analyze hx]
  exact h x hx

end Program

/-- Counting the instructions leaves the program as it is. -/
theorem computes_length (p : Program) :
    Computes length p (p.order.foldl (fun n _ => n + 1) 0) p :=
  computes_foldEach_of_same (fun n _ => n + 1) (fun _ _ _ => computes_pure _) 0

/-- Statistics have no influence on the program. -/
theorem computes_record (p : Program) (phase : String) (round : Nat) (pass : String) :
    Computes (Pipeline.record phase round pass) p () p := by
  intro w h
  unfold Pipeline.record
  simp only [bind, EStateM.bind, run_get]
  by_cases hs : w.statistics.isSome = true
  · rw [if_pos hs]
    refine (computes_length p).bind ?_ w h
    apply computes_modify
    exact fun _ => rfl
  · rw [if_neg hs]
    exact ⟨w, rfl, h⟩

/-- One round runs on every consistent program. -/
theorem computes_runRound (phase : String) (round : Nat) (stages : List Stage) {p : Program}
    (hp : p.Consistent) :
    Computes (Pipeline.runRound phase round stages) p () (p.runStages stages) := by
  refine (computes_forM Program.Consistent stages (fun q s _ hq => ?_) hp).1
  have hq' := (Program.rewrites_apply s.pass hq).consistent hq
  exact ⟨(computes_apply s.pass hq.closed).1.bind (computes_record _ phase round s.name), hq'⟩

/-- Several rounds run on every consistent program. -/
theorem computes_runRounds (phase : String) (stages : List Stage) (count round : Nat) {p : Program}
    (hp : p.Consistent) :
    Computes (Pipeline.runRounds phase stages count round) p ()
      ((fun q => q.runStages stages)^[count] p) := by
  induction count generalizing round p with
  | zero => exact computes_pure ()
  | succ count ih =>
      have hq := (Program.rewrites_runStages stages hp).consistent hp
      exact (computes_runRound phase round stages hp).bind (ih (round + 1) hq)

/-- A phase of optimisation succeeds on every consistent program. -/
theorem computes_optimize (pipeline : Pipeline) {p : Program} (hp : p.Consistent) :
    Computes pipeline.optimize p () (p.optimize pipeline) := by
  intro w h
  have hrun : ∀ phase, Computes
      (do
        Pipeline.runRounds phase pipeline.stages pipeline.rounds.toNat 1
        report (.finished phase pipeline.rounds)) p () (p.optimize pipeline) := fun phase =>
    (computes_runRounds phase pipeline.stages pipeline.rounds.toNat 1 hp).bind (computes_report _)
  exact hrun _ { w with phases := w.phases + 1 } h

/-- Lowering in a pipeline, which is recorded, fails as unsupported or leads to a valid program
whose literals are encoded. -/
theorem computes_pipelineLower {p : Program} (hp : p.Valid) : Lowers Pipeline.lower p fun _ q =>
    ∃ built, LowerSteps p ([], p) (built, q) ∧ q.Valid ∧ q.Encoded := by
  rcases computes_lower hp with ⟨e, q, hq⟩ | ⟨_, q, hq, built, hsteps, hencoded⟩
  · exact .inl ⟨e, q, hq.bind (computes_pure _)⟩
  · exact .inr ⟨(), q,
      hq.bind ((computes_record q "lower" 1 "Immediate Lowering").bind (computes_pure _)), built,
      hsteps, (hsteps.keeps hp (.start hp)).valid, hencoded⟩

/-- A compilation of a valid program gives a result: it is unsupported, or two phases with lowering
in between have led to a program without float literals. -/
theorem computes_compile (pipeline : Pipeline) {p : Program} (hp : p.Valid) :
    Lowers pipeline.compile p fun _ q =>
      ∃ built lowered, LowerSteps (p.analyze.optimize pipeline) ([], p.analyze.optimize pipeline)
          (built, lowered) ∧
        lowered.Valid ∧ lowered.Encoded ∧ q = lowered.analyze.optimize pipeline ∧
        q.Consistent ∧ q.FloatFree := by
  have hanalyze := (computes_analyze hp.closed).1
  have hoptimize := computes_optimize pipeline hp.analyze
  unfold Pipeline.compile
  rcases computes_pipelineLower (hp.analyze.optimize pipeline).toValid with
    ⟨e, q, hlower⟩ | ⟨_, q, hlower, built, hsteps, hvalid, hencoded⟩
  · exact .inl ⟨e, q, hanalyze.bind (hoptimize.bind (hlower.bind (computes_pure _)))⟩
  · refine .inr ⟨(), _, ?_, built, q, hsteps, hvalid, hencoded, rfl,
      hvalid.analyze.optimize pipeline,
      (Program.rewrites_optimize pipeline hvalid.analyze).floatFree hvalid.analyze
        hencoded.floatFree.analyze⟩
    exact hanalyze.bind (hoptimize.bind (hlower.bind ((computes_analyze hvalid.closed).1.bind
      ((computes_optimize pipeline hvalid.analyze).bind (computes_pure _)))))

/-- A compilation has led from `p` to `q`: by a phase of passes, lowering, and another phase. -/
inductive Program.Compiled (pipeline : Pipeline) (p q : Program) : Prop where
  | intro {built : Built} {lowered : Program} (source : p.Valid)
      (steps : LowerSteps (p.analyze.optimize pipeline) ([], p.analyze.optimize pipeline)
        (built, lowered))
      (valid : lowered.Valid) (encoded : lowered.Encoded)
      (result : q = lowered.analyze.optimize pipeline)

/-- What every step keeps, a run of lowering keeps. -/
theorem LowerSteps.preserves {source : Program} {s t : Built × Program}
    (P : Built × Program → Prop)
    (hP : ∀ {s t}, LowerStep source s t → Lowering source s → P s → P t)
    (hst : LowerSteps source s t) (hs : source.Valid) (hl : Lowering source s) (h : P s) : P t := by
  induction hst with
  | refl => exact h
  | tail hsteps hstep ih => exact hP hstep (LowerSteps.keeps hsteps hs hl) ih

namespace Program

/-- What every step keeps, a run of passes keeps. -/
theorem Rewrites.preserves {L : Literal → Prop} {p q : Program} (P : Program → Prop)
    (hP : ∀ {p q}, Rewrite L p q → p.Consistent → P p → P q) (hr : Rewrites L p q)
    (hp : p.Consistent) (h : P p) : P q := by
  induction hr with
  | refl => exact h
  | tail hpq hstep ih => exact hP hstep (Rewrites.consistent hpq hp) ih

/-- What an analysis and all steps keep, a compilation keeps. -/
theorem Compiled.preserves {pipeline : Pipeline} {p q : Program} (h : Compiled pipeline p q)
    (P : Program → Prop) (hanalyze : ∀ {p}, p.Valid → P p → P p.analyze)
    (hrewrite : ∀ {p q}, Rewrite Literal.Costly p q → p.Consistent → P p → P q)
    (hlower : ∀ {source s t}, LowerStep source s t → Lowering source s → P s.2 → P t.2)
    (hp : P p) : P q := by
  obtain ⟨hsource, hsteps, hvalid, -, rfl⟩ := h
  have hfirst := rewrites_optimize pipeline hsource.analyze
  have hc := (hfirst.consistent hsource.analyze).toValid
  have hp₁ := hfirst.preserves P hrewrite hsource.analyze (hanalyze hsource hp)
  have hp₂ := hsteps.preserves (fun s => P s.2) hlower hc (.start hc) hp₁
  exact (rewrites_optimize pipeline hvalid.analyze).preserves P hrewrite hvalid.analyze
    (hanalyze hvalid hp₂)

/-- A compiled program is consistent. -/
theorem Compiled.consistent {pipeline : Pipeline} {p q : Program} (h : Compiled pipeline p q) :
    q.Consistent := by
  obtain ⟨-, -, hvalid, -, rfl⟩ := h
  exact hvalid.analyze.optimize pipeline

end Program

end Straightline
