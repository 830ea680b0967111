import Straightline.Proofs.Frames
import Straightline.Proofs.Phases

/-!
# Moments of a compilation

To speak about the moments between two passes, a phase is written as one list of passes, the
schedule. `Pipeline.compileUpTo` is a compilation that stops after some of the passes, and
`Pipeline.compileFrom` is what is left to do then. The one after the other is the whole compilation
(`Pipeline.compile_eq_upTo`): what the rest needs is all in the workspace, the number of the phase
among it, which no pass changes.

On programs a phase is a fold over the schedule (`Program.runPasses`), and the moments are its
prefixes. All moments of a second phase start from one lowered program
(`exists_lowered_of_compile`).
-/

set_option autoImplicit false

namespace Straightline

namespace Pipeline

/-- The passes of a phase in the order in which they run, each with the number of its round. -/
def schedule (p : Pipeline) : List (Nat × Stage) :=
  (List.range' 1 p.rounds.toNat).flatMap fun round => p.stages.map (round, ·)

/-- Runs one pass and records it. -/
def runStage (phase : String) (s : Nat × Stage) : Action Unit := do
  s.2.pass.apply
  record phase s.1 s.2.name

/-- A phase of optimisation that stops after the given number of passes, and gives its name. -/
def optimizeUpTo (p : Pipeline) (passes : Nat) : Action String := do
  modify fun w => { w with phases := w.phases + 1 }
  let phase := "optimize #" ++ Nat.repr (← get).phases
  (p.schedule.take passes).forM (runStage phase)
  pure phase

/-- Every lifting pass of the standard pipeline has all its slots. -/
theorem lift_of_mem_schedule {rounds slots : Int} {s : Nat × Stage}
    (hs : s ∈ (standard rounds slots).schedule) (n : Int) (hn : s.2.pass = .lift n) :
    n = slots := by
  obtain ⟨round, -, hs⟩ := List.mem_flatMap.mp hs
  obtain ⟨stage, hstage, rfl⟩ := List.mem_map.mp hs
  simp only [standard, Pass.round, List.map_cons, List.map_nil, List.mem_cons, List.mem_nil_iff,
    or_false] at hstage
  rcases hstage with rfl | rfl | rfl | rfl | rfl | rfl | rfl <;> simp_all

/-- The rounds are the passes of all rounds, one after the other. -/
theorem runRounds_eq_forM (phase : String) (stages : List Stage) (count round : Nat) :
    runRounds phase stages count round =
      ((List.range' round count).flatMap fun r => stages.map (r, ·)).forM (runStage phase) := by
  induction count generalizing round with
  | zero => rfl
  | succ count ih =>
      have hround : runRound phase round stages =
          (stages.map (round, ·)).forM (runStage phase) := by
        rw [List.forM_eq_forM, List.forM_map]
        rfl
      rw [runRounds, ih, hround, List.range'_succ, List.flatMap_cons]
      exact (List.forM_append (m := Action)).symm

/-- A whole phase is all passes of the schedule, and a report. -/
theorem optimize_eq (p : Pipeline) : p.optimize =
    (do
      let phase ← p.optimizeUpTo p.schedule.length
      report (.finished phase p.rounds)) := by
  unfold optimize optimizeUpTo schedule
  rw [List.take_length]
  simp only [runRounds_eq_forM, bind_assoc, pure_bind]

/-- A moment of a compilation: after some passes of the first phase or of the second one. -/
inductive Moment where
  | first (passes : Nat)
  | second (passes : Nat)

/-- A compilation that stops at the given moment. -/
def compileUpTo (p : Pipeline) : Moment → Action (Except Unsupported Unit)
  | .first passes => do
    analyze
    let _ ← p.optimizeUpTo passes
    pure (.ok ())
  | .second passes => do
    analyze
    p.optimize
    match ← lower with
    | .error e => pure (.error e)
    | .ok () =>
      analyze
      let _ ← p.optimizeUpTo passes
      pure (.ok ())

/-- The passes of a phase that are left after the given number of them. -/
def optimizeFrom (p : Pipeline) (passes : Nat) : Action Unit := do
  let phase := "optimize #" ++ Nat.repr (← get).phases
  (p.schedule.drop passes).forM (runStage phase)
  report (.finished phase p.rounds)

/-- What is left of a compilation after the given moment. -/
def compileFrom (p : Pipeline) : Moment → Action (Except Unsupported Unit)
  | .first passes => do
    p.optimizeFrom passes
    match ← lower with
    | .error e => pure (.error e)
    | .ok () =>
      analyze
      p.optimize
      pure (.ok ())
  | .second passes => do
    p.optimizeFrom passes
    pure (.ok ())

end Pipeline

/-! ## Going on -/

/-- The number of phases stands aside from the program. -/
theorem aside_phases : Aside Workspace.phases where
  slot _ _ _ _ := rfl
  fill _ _ := rfl
  share _ _ := rfl
  head _ _ := rfl
  tail _ _ := rfl
  journal _ _ := rfl

namespace Pipeline

/-- No pass changes the number of phases. -/
theorem keeps_phases_runStage (phase : String) (s : Nat × Stage) :
    Keeps Workspace.phases (runStage phase s) := by
  refine .bind (.apply aside_phases s.2.pass) fun _ => .bind .get fun w => ?_
  split
  · exact .bind (.foldEach (fun _ _ => .pure _) 0) fun n => fun w => rfl
  · exact .pure ()

/-- What comes next counts only for the results that there are. -/
theorem bind_congr_of_ok {α β : Type} {x : Action α} {f g : α → Action β} {w : Workspace}
    (h : ∀ a v, x w = .ok a v → f a v = g a v) : (x >>= f) w = (x >>= g) w := by
  cases hrun : x w with
  | ok a v => rw [bind_of_ok hrun, bind_of_ok hrun, h a v hrun]
  | error e v => simp only [bind, EStateM.bind, hrun]

/-- A phase goes on from where it was stopped. -/
theorem optimize_eq_upTo (p : Pipeline) (passes : Nat) : p.optimize =
    (do
      let _ ← p.optimizeUpTo passes
      p.optimizeFrom passes) := by
  funext w
  -- the phase that has just begun, whose name is that of the number of phases
  set w₁ : Workspace := { w with phases := w.phases + 1 }
  set run : Nat × Stage → Action Unit := runStage ("optimize #" ++ Nat.repr w₁.phases) with hrun
  have hwhole : p.optimize w = (p.schedule.forM run >>= fun _ =>
      report (.finished ("optimize #" ++ Nat.repr w₁.phases) p.rounds)) w₁ := by
    rw [optimize_eq]
    unfold optimizeUpTo
    rw [List.take_length]
    simp only [bind_assoc, pure_bind]
    rfl
  have hparts : (do let _ ← p.optimizeUpTo passes; p.optimizeFrom passes : Action Unit) w =
      ((p.schedule.take passes).forM run >>= fun _ => p.optimizeFrom passes) w₁ := by
    unfold optimizeUpTo
    simp only [bind_assoc, pure_bind]
    rfl
  have hsplit : p.schedule.forM run =
      ((p.schedule.take passes).forM run >>= fun _ => (p.schedule.drop passes).forM run) := by
    nth_rewrite 1 [← List.take_append_drop passes p.schedule]
    exact List.forM_append
  rw [hwhole, hparts, hsplit, bind_assoc]
  refine bind_congr_of_ok fun _ v hv => ?_
  have hphases : v.phases = w₁.phases := (Keeps.forM (keeps_phases_runStage _) _).of_ok hv
  simp only [optimizeFrom, bind, EStateM.bind, run_get, hphases]
  rfl

/-- A compilation goes on from every moment at which it is stopped. -/
theorem compile_eq_upTo (p : Pipeline) (moment : Moment) : p.compile =
    (do
      match ← p.compileUpTo moment with
      | .error e => pure (.error e)
      | .ok () => p.compileFrom moment) := by
  cases moment with
  | first passes =>
      have hgo : ∀ next : Unit → Action (Except Unsupported Unit), (p.optimize >>= next) =
          (p.optimizeUpTo passes >>= fun _ => p.optimizeFrom passes >>= next) := fun next => by
        rw [p.optimize_eq_upTo passes, bind_assoc]
      unfold compile compileUpTo compileFrom
      rw [bind_assoc]
      refine bind_congr fun _ => ?_
      rw [bind_assoc]
      simp only [pure_bind]
      exact hgo _
  | second passes =>
      unfold compile compileUpTo compileFrom
      simp only [bind_assoc]
      refine bind_congr fun _ => bind_congr fun _ => bind_congr fun r => ?_
      cases r with
      | error e => rfl
      | ok _ =>
          rw [p.optimize_eq_upTo passes]
          simp only [bind_assoc, pure_bind]

end Pipeline

/-! ## The program at a moment -/

namespace Program

variable {L : Literal → Prop} {p : Program}

/-- The program after passes that run one after the other. -/
def runPasses (p : Program) (passes : List (Nat × Stage)) : Program :=
  passes.foldl (fun q s => q.apply s.2.pass) p

/-- What every pass of a list keeps, the list keeps. -/
theorem forall_runPasses (P : Program → Prop) (passes : List (Nat × Stage))
    (hstep : ∀ q, ∀ s ∈ passes, P q → P (q.apply s.2.pass)) (hp : P p) :
    P (p.runPasses passes) := by
  induction passes generalizing p with
  | nil => exact hp
  | cons s passes ih =>
      exact ih (fun q t ht => hstep q t (by simp [ht])) (hstep p s (by simp) hp)

/-- Passes are a chain of steps that lift what each of them chooses in the program it meets. -/
theorem rewrites_passes (passes : List (Nat × Stage)) (hp : p.Consistent)
    (hl : ∀ (k : Nat) (s : Nat × Stage), passes[k]? = some s →
      (p.runPasses (passes.take k)).LiftsIn L s.2.pass) : Rewrites L p (p.runPasses passes) := by
  induction passes generalizing p with
  | nil => exact .refl
  | cons s passes ih =>
      have hs := rewrites_apply_of_liftsIn s.2.pass hp (hl 0 s rfl)
      exact Relation.ReflTransGen.trans hs (ih (hs.consistent hp) fun k t ht => hl (k + 1) t ht)

/-- Passes keep a program consistent. -/
theorem Consistent.runPasses (hp : p.Consistent) (passes : List (Nat × Stage)) :
    (p.runPasses passes).Consistent :=
  forall_runPasses Consistent passes
    (fun _ s _ hq => (rewrites_apply s.2.pass hq).consistent hq) hp

/-- A phase is the passes of the schedule. -/
theorem optimize_eq_runPasses (pipeline : Pipeline) (p : Program) :
    p.optimize pipeline = p.runPasses pipeline.schedule := by
  have hround : ∀ (round : Nat) (q : Program),
      q.runPasses (pipeline.stages.map (round, ·)) = q.runStages pipeline.stages := by
    intro round q
    simp only [runPasses, runStages, List.foldl_map]
  have hrounds : ∀ (count round : Nat) (q : Program),
      (fun q => q.runStages pipeline.stages)^[count] q =
        q.runPasses ((List.range' round count).flatMap fun r => pipeline.stages.map (r, ·)) := by
    intro count
    induction count with
    | zero => exact fun _ _ => rfl
    | succ count ih =>
        intro round q
        rw [Function.iterate_succ_apply, ih (round + 1), ← hround round, List.range'_succ,
          List.flatMap_cons]
        simp only [runPasses, List.foldl_append]
  exact hrounds _ 1 p

end Program

section Moments

variable (pipeline : Pipeline) {p : Program}

/-- Passes run on every consistent program. -/
theorem computes_runPasses (phase : String) (passes : List (Nat × Stage)) (hp : p.Consistent) :
    Computes (passes.forM (Pipeline.runStage phase)) p () (p.runPasses passes) := by
  refine (computes_forM Program.Consistent passes (fun q s _ hq => ?_) hp).1
  exact ⟨(computes_apply s.2.pass hq.closed).1.bind (computes_record _ phase s.1 s.2.name),
    (Program.rewrites_apply s.2.pass hq).consistent hq⟩

/-- A phase that stops after some passes has run these. -/
theorem optimizeUpTo_of_consistent (passes : Nat) (hp : p.Consistent) {w : Workspace}
    (h : w.store.Holds p) : ∃ phase w', pipeline.optimizeUpTo passes w = .ok phase w' ∧
      w'.store.Holds (p.runPasses (pipeline.schedule.take passes)) := by
  set phase := "optimize #" ++ Nat.repr (w.phases + 1)
  obtain ⟨w', hrun, hholds⟩ := computes_runPasses phase (pipeline.schedule.take passes) hp
    { w with phases := w.phases + 1 } h
  refine ⟨phase, w', ?_, hholds⟩
  have hpure : ((pipeline.schedule.take passes).forM (Pipeline.runStage phase) >>= fun _ =>
      pure phase : Action String) { w with phases := w.phases + 1 } = .ok phase w' :=
    bind_of_ok hrun
  exact hpure

/-- A compilation that succeeds has lowered one program, and this is what its second phase starts
from, wherever it is stopped. -/
theorem exists_lowered_of_compile (hp : p.Valid) {w w' : Workspace} (h : w.store.Holds p)
    (hrun : pipeline.compile w = .ok (.ok ()) w') :
    ∃ built lowered, LowerSteps (p.analyze.optimize pipeline) ([], p.analyze.optimize pipeline)
        (built, lowered) ∧
      lowered.Valid ∧ lowered.Encoded ∧ w'.store.Holds (lowered.analyze.optimize pipeline) ∧
      ∀ passes, ∃ v, pipeline.compileUpTo (.second passes) w = .ok (.ok ()) v ∧
        v.store.Holds (lowered.analyze.runPasses (pipeline.schedule.take passes)) := by
  obtain ⟨w₁, hanalyze, hholds₁⟩ := (computes_analyze hp.closed).1 w h
  obtain ⟨w₂, hoptimize, hholds₂⟩ := computes_optimize pipeline hp.analyze w₁ hholds₁
  unfold Pipeline.compile at hrun
  rw [bind_of_ok hanalyze, bind_of_ok hoptimize] at hrun
  rcases computes_pipelineLower (hp.analyze.optimize pipeline).toValid with
    ⟨e, q, hlower⟩ | ⟨_, q, hlower, built, hsteps, hvalid, hencoded⟩
  · obtain ⟨w₃, hlower, -⟩ := hlower w₂ hholds₂
    rw [bind_of_ok hlower] at hrun
    simp [pure, EStateM.pure] at hrun
  · obtain ⟨w₃, hlower, hholds₃⟩ := hlower w₂ hholds₂
    obtain ⟨w₄, hanalyze', hholds₄⟩ := (computes_analyze hvalid.closed).1 w₃ hholds₃
    obtain ⟨w₅, hoptimize', hholds₅⟩ := computes_optimize pipeline hvalid.analyze w₄ hholds₄
    rw [bind_of_ok hlower] at hrun
    dsimp only at hrun
    rw [bind_of_ok hanalyze', bind_of_ok hoptimize'] at hrun
    obtain rfl : w₅ = w' := (EStateM.Result.ok.inj hrun).2
    refine ⟨built, q, hsteps, hvalid, hencoded, hholds₅, fun passes => ?_⟩
    obtain ⟨phase, v, hupTo, hv⟩ :=
      optimizeUpTo_of_consistent pipeline passes hvalid.analyze hholds₄
    refine ⟨v, ?_, hv⟩
    rw [Pipeline.compileUpTo, bind_of_ok hanalyze, bind_of_ok hoptimize, bind_of_ok hlower]
    dsimp only
    rw [bind_of_ok hanalyze', bind_of_ok hupTo]
    rfl

end Moments

end Straightline
