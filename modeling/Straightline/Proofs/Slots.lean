import Mathlib.Data.Finset.Card
import Mathlib.Data.Finset.Dedup
import Mathlib.Data.Finset.Union
import Straightline.Proofs.Graph
import Straightline.Proofs.Immediates
import Straightline.Proofs.Moments

/-!
# The slots that a program takes

Every name of a program takes a slot, written or read. Lifting is the only thing that brings in
names at all, and it stops where the slots end; all other passes and lowering can only lose names
(`Program.Rewrite.names`, `LowerStep.names`). One pass therefore never takes more slots than there
are, unless the program took more before (`Program.card_names_apply`).

It is so at every moment of a compilation, not only at its end (`slotsWithin_of_compile`).
-/

set_option autoImplicit false

namespace Straightline

namespace Program

variable {L : Literal → Prop} {p q : Program}

/-- The names that live instructions write or read. -/
def names (p : Program) : Finset String :=
  (p.order.flatMap fun id => (p.inst id).externalNames).toFinset

theorem mem_names {n : String} :
    n ∈ p.names ↔ ∃ id ∈ p.order, n ∈ (p.inst id).externalNames := by
  simp [names]

/-- An instruction has the name that it writes and those that it reads. -/
theorem mem_externalNames_inst {i : Inst} {n : String} :
    n ∈ i.externalNames ↔ (i.isTemp = false ∧ n = i.dst) ∨ .name n ∈ i.args := by
  have hread : n ∈ namesOf i.args ↔ .name n ∈ i.args := by
    unfold namesOf
    rw [List.mem_filterMap]
    constructor
    · rintro ⟨v, hv, hn⟩
      cases v with
      | literal l => simp at hn
      | ref r => simp at hn
      | name s =>
          obtain rfl : s = n := by simpa using hn
          exact hv
    · exact fun h => ⟨_, h, rfl⟩
  unfold Inst.externalNames
  rw [List.mem_append, hread]
  cases i.isTemp <;> simp

/-! ## Counting -/

theorem addNew_append {α : Type} [BEq α] (xs ys zs : List α) :
    addNew xs (ys ++ zs) = addNew (addNew xs ys) zs := by
  unfold addNew
  rw [List.foldl_append]

/-- Nothing is collected twice. -/
theorem nodup_addNew {α : Type} [BEq α] [LawfulBEq α] {xs : List α} (h : xs.Nodup) (ys : List α) :
    (addNew xs ys).Nodup := by
  unfold addNew
  induction ys generalizing xs with
  | nil => exact h
  | cons y ys ih =>
      rw [List.foldl_cons]
      apply ih
      by_cases hy : xs.contains y = true
      · rw [if_pos hy]
        exact h
      · rw [if_neg hy, ← List.concat_eq_append]
        exact h.concat (by simpa using hy)

/-- What is collected on the way is collected from all instructions one after the other. -/
theorem foldl_addNew {α β : Type} [BEq α] (f : β → List α) (ids : List β) (found : List α) :
    ids.foldl (fun found id => addNew found (f id)) found = addNew found (ids.flatMap f) := by
  induction ids generalizing found with
  | nil => rfl
  | cons id ids ih => rw [List.foldl_cons, ih, List.flatMap_cons, addNew_append]

/-- The names are collected from all instructions. -/
theorem externalNames_eq (p : Program) :
    p.externalNames = addNew [] (p.order.flatMap fun id => (p.inst id).externalNames) :=
  foldl_addNew _ p.order []

/-- What lifting counts is the number of different names. -/
theorem length_externalNames (p : Program) : p.externalNames.length = p.names.card := by
  have hnodup : p.externalNames.Nodup := by
    rw [externalNames_eq]
    exact nodup_addNew List.nodup_nil _
  have hsame : p.externalNames.toFinset = p.names := by
    ext n
    rw [List.mem_toFinset, externalNames_eq, names, List.mem_toFinset]
    constructor
    · intro h
      exact (mem_addNew h).resolve_left (by simp)
    · exact fun h => mem_addNew_of_mem (.inr h)
  rw [← hsame, List.toFinset_card_of_nodup hnodup]

/-! ## Steps of passes -/

/-- A rule reads no name that the instruction did not read. -/
theorem name_mem_of_rule {rule : Rule} (hr : rule.IsIdentity) {i i' : Inst} {e : Event}
    (h : rule i = some (i', e)) {n : String} (hn : .name n ∈ i'.args) : .name n ∈ i.args := by
  rcases hr with rfl | rfl | rfl
  · obtain ⟨x, -, hargs, rfl⟩ := unitProduct_eq_some h
    rw [hargs]
    exact List.mem_cons_of_mem _ hn
  · obtain ⟨a, b, -, hargs, rfl⟩ := unitProductSum_eq_some h
    rw [hargs]
    have hn' : .name n = a ∨ .name n = b := by simpa using hn
    rcases hn' with rfl | rfl <;> simp
  · obtain ⟨x, k, -, hargs, rfl⟩ := reciprocal_eq_some h
    rw [hargs]
    have hn' : .name n = x := by simpa using hn
    simp [← hn']

/-- A name after a replacement was there before, or is the new operand. -/
theorem name_mem_replace {i : Inst} {old new : Value} {n : String}
    (h : .name n ∈ (i.replace old new).args) : new = .name n ∨ .name n ∈ i.args := by
  rcases mem_args_replace h with ⟨he, -⟩ | ⟨hv, -⟩
  · exact .inl he.symm
  · exact .inr hv

/-- A name that is read after a step was read before it, or stands for a literal that was lifted. -/
theorem Rewrite.name_mem (hr : Rewrite L p q) (hp : p.Consistent) {x : InstId} (hx : x ∈ q.order)
    {n : String} (hn : .name n ∈ (q.inst x).args) :
    (∃ y ∈ p.order, .name n ∈ (p.inst y).args) ∨ ∃ l, L l ∧ l.constantName = n := by
  have hxo := hr.mem_order hx
  cases hr with
  | analyze =>
      rw [inst_analyze hxo] at hn
      exact .inl ⟨x, hxo, hn⟩
  | @fuse id user a b fused hid hu hc hf =>
      rw [inst_fuse] at hn
      by_cases hxu : x = user
      · rw [if_pos hxu] at hn
        rcases mem_args_of_fuse? hf hn with hn | hn
        · obtain ⟨-, hargs, -⟩ := candidate?_eq_some hc
          exact .inl ⟨id, hid, by rw [hargs]; exact hn⟩
        · exact .inl ⟨user, hu, hn⟩
      · rw [if_neg hxu] at hn
        exact .inl ⟨x, hxo, hn⟩
  | @simplify id rule i e hi hid hrule =>
      by_cases hxid : x = id
      · rw [hxid, inst_modify_self] at hn
        exact .inl ⟨id, hid, name_mem_of_rule hi hrule hn⟩
      · rw [inst_modify_of_ne _ hxid] at hn
        exact .inl ⟨x, hxo, hn⟩
  | drop => exact .inl ⟨x, hxo, hn⟩
  | @rename id user dst uses hid hu hs hm =>
      obtain ⟨-, hargs, rfl, rfl⟩ := moveFrom?_eq_some hm
      have hne : id ≠ user := (hp.refs user hu id (by simp [hargs])).1.ne hp.nodup
      obtain ⟨hxu, -⟩ := hp.nodup.mem_erase_iff.mp hx
      have hn' : .name n ∈ ((p.inst x).replace (.ref user) (.ref id)).args := by
        by_cases hxid : x = id
        · rw [hxid, inst_takeOver_self hp hu hne hid] at hn
          rw [hxid]
          exact hn
        · rwa [inst_takeOver_of_ne hp hu hxu hxo hxid] at hn
      exact .inl ⟨x, hxo, (name_mem_replace hn').resolve_left (by simp)⟩
  | @forward id source uses hid hf =>
      obtain ⟨-, -, hargs, rfl⟩ := forwardable?_eq_some hf
      rw [inst_bypass hp hid source hxo] at hn
      rcases name_mem_replace hn with rfl | hn
      · exact .inl ⟨id, hid, by simp [hargs]⟩
      · exact .inl ⟨x, hxo, hn⟩
  | @merge first id hpre _ _ _ =>
      rw [inst_merge hp first hpre.right_mem hxo] at hn
      exact .inl ⟨x, hxo, (name_mem_replace hn).resolve_left (by simp)⟩
  | @lift chosen hl id hid =>
      by_cases hxid : x = id
      · rw [hxid, liftOperands, inst_modify_self] at hn
        obtain ⟨v, hv, he⟩ := List.mem_map.mp hn
        cases v with
        | name s =>
            obtain rfl : s = n := by simpa [liftOperand] using he
            exact .inl ⟨id, hid, hv⟩
        | ref r => simp [liftOperand] at he
        | literal l =>
            by_cases hc : chosen.contains l = true
            · rw [liftOperand, if_pos hc, Value.name.injEq] at he
              exact .inr ⟨l, hl l (by simpa using hc), he⟩
            · rw [liftOperand, if_neg hc] at he
              exact absurd he (by simp)
      · rw [liftOperands, inst_modify_of_ne _ hxid] at hn
        exact .inl ⟨x, hxo, hn⟩

/-- A step brings in no names but those of constants for lifted literals. -/
theorem Rewrite.names (hr : Rewrite L p q) (hp : p.Consistent) {n : String} (hn : n ∈ q.names) :
    n ∈ p.names ∨ ∃ l, L l ∧ l.constantName = n := by
  obtain ⟨x, hx, hnx⟩ := mem_names.mp hn
  rcases mem_externalNames_inst.mp hnx with ⟨ht, rfl⟩ | hread
  · -- a destination was there before, perhaps at another instruction
    obtain ⟨f, hf⟩ := hr.origins hp
    have ht' : (p.inst (f x)).isTemp = false := by rw [← hf.isTemp hx]; exact ht
    exact .inl (mem_names.mpr ⟨f x, hf.mem x hx,
      mem_externalNames_inst.mpr (.inl ⟨ht', hf.dst x hx⟩)⟩)
  · rcases hr.name_mem hp hx hread with ⟨y, hy, hread⟩ | hlifted
    · exact .inl (mem_names.mpr ⟨y, hy, mem_externalNames_inst.mpr (.inr hread)⟩)
    · exact .inr hlifted

/-- Passes bring in no names but those of constants for lifted literals. -/
theorem Rewrites.names (hr : Rewrites L p q) (hp : p.Consistent) {n : String} (hn : n ∈ q.names) :
    n ∈ p.names ∨ ∃ l, L l ∧ l.constantName = n := by
  refine hr.preserves (fun r => ∀ n ∈ r.names, n ∈ p.names ∨ ∃ l, L l ∧ l.constantName = n) ?_ hp
    (fun _ hn => .inl hn) n hn
  intro r r' hstep hc hr n hn
  rcases hstep.names hc hn with hn | hlifted
  · exact hr n hn
  · exact .inr hlifted

/-- An analysis changes no names. -/
theorem names_analyze (p : Program) : p.analyze.names = p.names := by
  ext n
  simp only [mem_names, order_analyze]
  refine exists_congr fun x => and_congr_right fun hx => ?_
  rw [inst_analyze hx]
  rfl

/-- Lifting fills at most the slots that are left. -/
theorem length_chooseLiterals_le {slots : Int} (hslots : 0 ≤ slots) (p : Program) :
    (p.chooseLiterals slots).length ≤ (slots - p.names.card).toNat := by
  unfold chooseLiterals
  rw [length_externalNames, freeSlots, if_neg (by omega)]
  exact length_drain_le _ _

/-- A pass that lifts into at most `slots` slots takes no more than that, or no more than before. -/
theorem card_names_apply {slots : Int} (hslots : 0 ≤ slots) (pass : Pass) (hp : p.Consistent)
    (hpass : ∀ s, pass = .lift s → s = slots) :
    ((p.apply pass).names.card : Int) ≤ max slots p.names.card := by
  have hlifts : p.LiftsIn (· ∈ p.chooseLiterals slots) pass := by
    intro s hs l hl
    rwa [hpass s hs] at hl
  have hrewrites := rewrites_apply_of_liftsIn pass hp hlifts
  have hsub : (p.apply pass).names ⊆
      p.names ∪ ((p.chooseLiterals slots).map Literal.constantName).toFinset := by
    intro n hn
    rw [Finset.mem_union, List.mem_toFinset, List.mem_map]
    exact hrewrites.names hp hn
  have hcard : (p.apply pass).names.card ≤ p.names.card + (p.chooseLiterals slots).length :=
    calc (p.apply pass).names.card
        ≤ (p.names ∪ ((p.chooseLiterals slots).map Literal.constantName).toFinset).card :=
          Finset.card_le_card hsub
      _ ≤ p.names.card + ((p.chooseLiterals slots).map Literal.constantName).toFinset.card :=
          Finset.card_union_le _ _
      _ ≤ p.names.card + (p.chooseLiterals slots).length := by
          have hle := List.toFinset_card_le ((p.chooseLiterals slots).map Literal.constantName)
          rw [List.length_map] at hle
          omega
  have hroom := length_chooseLiterals_le hslots p
  omega

end Program

open Program

/-! ## Lowering -/

/-- A step of lowering brings in no names. -/
theorem LowerStep.names {source : Program} {s t : Built × Program} (hst : LowerStep source s t)
    (hl : Lowering source s) : t.2.names ⊆ s.2.names := by
  have himmediate : ∀ (field : UInt32) (n : String), Value.name n ≠ immediate field := by
    simp [immediate]
  -- what builds a float is a temporary and reads no name
  have hbuilds : ∀ i : Inst, i.isTemp = true → (∀ n, .name n ∉ i.args) →
      ∀ n ∈ i.externalNames, n ∈ s.2.names := by
    intro i ht hread n hn
    rcases mem_externalNames_inst.mp hn with ⟨hf, -⟩ | hr
    · exact absurd (ht.symm.trans hf) (by simp)
    · exact absurd hr (hread n)
  have hkept := hst.forall_inst (fun i => ∀ n ∈ i.externalNames, n ∈ s.2.names) hl
    (fun l _ => hbuilds _ (by simp [highInst, Inst.isTemp, isTemp, floatName])
      fun n => by simp [highInst, himmediate])
    (fun l _ => hbuilds _ (by simp [highInst, Inst.isTemp, isTemp, floatHighName])
      fun n => by simp [highInst, himmediate])
    (fun l _ _ => hbuilds _ (by simp [lowInst, Inst.isTemp, isTemp, floatName])
      fun n => by simp [lowInst, himmediate])
    (fun i position l r _ _ hi n hn => by
      rcases mem_externalNames_inst.mp hn with ⟨ht, hd⟩ | hread
      · exact hi n (mem_externalNames_inst.mpr (.inl ⟨ht, hd⟩))
      · rcases List.mem_or_eq_of_mem_set hread with hread | he
        · exact hi n (mem_externalNames_inst.mpr (.inr hread))
        · exact absurd he (by simp))
    (fun l i i' _ _ he hi n hn => by
      obtain ⟨hdst, -, -⟩ := of_encodeInteger he
      rcases mem_externalNames_inst.mp hn with ⟨ht, hd⟩ | hread
      · rw [Inst.isTemp, hdst] at ht
        rw [hdst] at hd
        exact hi n (mem_externalNames_inst.mpr (.inl ⟨ht, hd⟩))
      · rcases encodeInteger_eq_ok he with ⟨-, -, rfl⟩ | ⟨-, rfl⟩ | ⟨-, rfl⟩
        · exact absurd (List.mem_singleton.mp hread) (himmediate _ n)
        · exact hi n (mem_externalNames_inst.mpr (.inr hread))
        · exact hi n (mem_externalNames_inst.mpr (.inr hread)))
    fun x hx n hn => mem_names.mpr ⟨x, hx, hn⟩
  intro n hn
  obtain ⟨x, hx, hnx⟩ := mem_names.mp hn
  exact hkept x hx n hnx

/-- Lowering brings in no names. -/
theorem LowerSteps.names {source lowered : Program} {built : Built} (hs : source.Valid)
    (hsteps : LowerSteps source ([], source) (built, lowered)) : lowered.names ⊆ source.names := by
  have hkept := hsteps.preserves (fun s => ∀ n ∈ s.2.names, n ∈ source.names) ?_ hs (.start hs) ?_
  · exact hkept
  · intro s t hst hl h n hn
    exact h n (hst.names hl hn)
  · exact fun _ hn => hn

/-! ## A compilation pass by pass -/

/-- The workspace holds a consistent program that takes at most `bound` slots. -/
def Workspace.Fits (w : Workspace) (bound : Int) : Prop :=
  ∃ p, w.store.Holds p ∧ p.Consistent ∧ (p.names.card : Int) ≤ bound

section Fits

variable {bound : Int} {w : Workspace}

/-- After an analysis the program fits if it did before. -/
theorem analyze_fits {p : Program} (h : w.store.Holds p) (hp : p.Valid)
    (hcard : (p.names.card : Int) ≤ bound) : ∃ w', analyze w = .ok () w' ∧ w'.Fits bound := by
  obtain ⟨w', hrun, hholds, -⟩ := analyze_of_valid h hp
  exact ⟨w', hrun, _, hholds, hp.analyze, by rw [names_analyze]; exact hcard⟩

variable {slots : Int} (hslots : 0 ≤ slots) (hbound : slots ≤ bound) (rounds : Int)

include hslots hbound

/-- However many passes of a phase have run, the program fits. -/
theorem optimizeUpTo_fits (passes : Nat) (h : w.Fits bound) :
    ∃ phase w', (Pipeline.standard rounds slots).optimizeUpTo passes w = .ok phase w' ∧
      w'.Fits bound := by
  obtain ⟨p, hholds, hp, hcard⟩ := h
  obtain ⟨phase, w', hrun, hholds'⟩ :=
    optimizeUpTo_of_consistent (Pipeline.standard rounds slots) passes hp hholds
  refine ⟨phase, w', hrun, _, hholds', ?_⟩
  refine forall_runPasses (fun q => q.Consistent ∧ (q.names.card : Int) ≤ bound) _
    (fun q s hs ⟨hq, hle⟩ => ?_) ⟨hp, hcard⟩
  have hnext := card_names_apply hslots s.2.pass hq
    (Pipeline.lift_of_mem_schedule (List.mem_of_mem_take hs))
  exact ⟨(rewrites_apply s.2.pass hq).consistent hq, by omega⟩

/-- After a phase, the program fits. -/
theorem optimize_fits (h : w.Fits bound) :
    ∃ w', (Pipeline.standard rounds slots).optimize w = .ok () w' ∧ w'.Fits bound := by
  obtain ⟨phase, w', hrun, hfits⟩ := optimizeUpTo_fits hslots hbound rounds
    (Pipeline.standard rounds slots).schedule.length h
  refine ⟨{ w' with journal := w'.journal.push (.finished phase rounds) }, ?_, hfits⟩
  rw [Pipeline.optimize_eq, bind_of_ok hrun]
  rfl

omit hslots hbound in
/-- Lowering ends, and the program fits unless it is unsupported. -/
theorem lower_fits (h : w.Fits bound) : ∃ r w', Pipeline.lower w = .ok r w' ∧
    (r = .ok () → ∃ q, w'.store.Holds q ∧ q.Valid ∧ (q.names.card : Int) ≤ bound) := by
  obtain ⟨p, hholds, hp, hcard⟩ := h
  rcases computes_pipelineLower hp.toValid with ⟨e, q, hq⟩ | ⟨_, q, hq, built, hsteps, hvalid, -⟩
  · obtain ⟨w', hrun, -⟩ := hq w hholds
    exact ⟨_, w', hrun, by simp⟩
  · obtain ⟨w', hrun, hq'⟩ := hq w hholds
    have hle := Finset.card_le_card (hsteps.names hp.toValid)
    exact ⟨_, w', hrun, fun _ => ⟨q, hq', hvalid, by omega⟩⟩

/-- A compilation whose second phase is `next`, whatever keeps the program fitting. -/
theorem compileWith_fits {β : Type} {p : Program} (next : Action β) (h : w.store.Holds p)
    (hp : p.Valid) (hcard : (p.names.card : Int) ≤ bound)
    (hnext : ∀ v : Workspace, v.Fits bound → ∃ b v', next v = .ok b v' ∧ v'.Fits bound) :
    ∃ r w', (do
      analyze
      (Pipeline.standard rounds slots).optimize
      match ← Pipeline.lower with
      | .error e => pure (.error e)
      | .ok () =>
        analyze
        let _ ← next
        pure (.ok ()) : Action (Except Unsupported Unit)) w = .ok r w' ∧
      (r = .ok () → w'.Fits bound) := by
  obtain ⟨w₁, hanalyze, hfits₁⟩ := analyze_fits h hp hcard
  obtain ⟨w₂, hoptimize, hfits₂⟩ := optimize_fits hslots hbound rounds hfits₁
  obtain ⟨r, w₃, hlower, hlowered⟩ := lower_fits hfits₂
  rw [bind_of_ok hanalyze, bind_of_ok hoptimize, bind_of_ok hlower]
  cases r with
  | error e => exact ⟨.error e, w₃, rfl, by simp⟩
  | ok u =>
      obtain ⟨q, hq, hvalid, hcard'⟩ := hlowered rfl
      obtain ⟨w₄, hanalyze', hfits₄⟩ := analyze_fits hq hvalid hcard'
      obtain ⟨b, w₅, hrun, hfits₅⟩ := hnext w₄ hfits₄
      refine ⟨.ok (), w₅, ?_, fun _ => hfits₅⟩
      dsimp only
      rw [bind_of_ok hanalyze', bind_of_ok hrun]
      rfl

/-- At every moment of a compilation that goes on, the program fits. -/
theorem compileUpTo_fits {p : Program} (moment : Pipeline.Moment) (h : w.store.Holds p)
    (hp : p.Valid) (hcard : (p.names.card : Int) ≤ bound) :
    ∃ r w', (Pipeline.standard rounds slots).compileUpTo moment w = .ok r w' ∧
      (r = .ok () → w'.Fits bound) := by
  cases moment with
  | first passes =>
      obtain ⟨w₁, hanalyze, hfits₁⟩ := analyze_fits h hp hcard
      obtain ⟨_, w₂, hrun, hfits₂⟩ := optimizeUpTo_fits hslots hbound rounds passes hfits₁
      refine ⟨.ok (), w₂, ?_, fun _ => hfits₂⟩
      rw [Pipeline.compileUpTo, bind_of_ok hanalyze, bind_of_ok hrun]
      rfl
  | second passes =>
      exact compileWith_fits hslots hbound rounds _ h hp hcard fun v hv =>
        optimizeUpTo_fits hslots hbound rounds passes hv

end Fits

/-- The program takes at most `bound` slots, and lifting counts as many: every name of the program
once. -/
structure Workspace.SlotsWithin (w : Workspace) (bound : Int) : Prop where
  counted : ∃ found w', externalNames w = .ok found w' ∧ found.length = w.store.program.names.card
  within : (w.store.program.names.card : Int) ≤ bound

/-- A program that fits takes the slots that it is allowed. -/
theorem Workspace.Fits.slotsWithin {w : Workspace} {bound : Int} (h : w.Fits bound) :
    w.SlotsWithin bound := by
  obtain ⟨p, hholds, hp, hcard⟩ := h
  rw [← hholds.program_eq] at hcard
  obtain ⟨w', hcount, -⟩ := computes_collect hp.known addNew Inst.externalNames [] w hholds
  refine ⟨⟨_, w', hcount, ?_⟩, hcard⟩
  rw [hholds.program_eq]
  exact p.length_externalNames

/-- Compiling a program that was read gives a result. At every moment between two passes, and at the
end if the compilation succeeds, the program takes at most the slots that there are, or as many as
the program took that was read if these are more. -/
theorem slotsWithin_of_compile {source : Source.Bytes} {w₀ w w₁ : Workspace}
    (hload : Source.load source w₀ = .ok (.ok ()) w) (hw : w₁.store = w.store) (rounds : Int)
    {slots : Int} (hslots : 0 ≤ slots) :
    (∀ moment, ∃ r v, (Pipeline.standard rounds slots).compileUpTo moment w₁ = .ok r v ∧
      (r = .ok () → v.SlotsWithin (max slots w.store.program.names.card))) ∧
    ∃ r w', (Pipeline.standard rounds slots).compile w₁ = .ok r w' ∧
      (r = .ok () → w'.SlotsWithin (max slots w.store.program.names.card)) := by
  have hfresh := (Source.loaded_of_load hload).fresh
  have hholds : w₁.store.Holds w.store.program := hw ▸ hfresh.holds
  have hbound : slots ≤ max slots w.store.program.names.card := le_max_left _ _
  have hcard : (w.store.program.names.card : Int) ≤ max slots w.store.program.names.card :=
    le_max_right _ _
  constructor
  · intro moment
    obtain ⟨r, v, hrun, hfits⟩ :=
      compileUpTo_fits hslots hbound rounds moment hholds hfresh.valid hcard
    exact ⟨r, v, hrun, fun hr => (hfits hr).slotsWithin⟩
  · obtain ⟨r, w', hrun, hfits⟩ := compileWith_fits hslots hbound rounds
      (Pipeline.standard rounds slots).optimize hholds hfresh.valid hcard fun v hv => by
        obtain ⟨v', hv', hfits⟩ := optimize_fits hslots hbound rounds hv
        exact ⟨(), v', hv', hfits⟩
    exact ⟨r, w', hrun, fun hr => (hfits hr).slotsWithin⟩

/-- There is a slot for one of two floats, and the name of the constant for the other is in use
already. The second phase removes the only reader of a name and takes its slot again. -/
theorem slotsWithin_of_compiled_constants :
    let source := "T_0 = foo(a)\nT_1 = foo(T_0)\nz = add_f(C_f_2_5, 2.5)\nu = mul_f(z, 0.1)\n"
    let stop := Pipeline.Moment.first 7
    ∃ w v w', Source.load source.toUTF8.toList {} = .ok (.ok ()) w ∧
      w.store.program.names.card = 4 ∧
      (Pipeline.standard 1 5).compileUpTo stop w = .ok (.ok ()) v ∧
      v.store.program.names = {"a", "z", "C_f_2_5", "u", "C_f_0_1"} ∧ v.SlotsWithin 5 ∧
      (Pipeline.standard 1 5).compile w = .ok (.ok ()) w' ∧
      w'.store.program.names = {"z", "C_f_2_5", "C_i_131328", "u", "C_f_0_1"} ∧
      w'.SlotsWithin 5 := by
  intro source stop
  have hruns : ∃ w ∈ after? (Source.load source.toUTF8.toList) {},
      w.store.program.names.card = 4 ∧
      (∃ v ∈ after? ((Pipeline.standard 1 5).compileUpTo stop) w,
        v.store.program.names = {"a", "z", "C_f_2_5", "u", "C_f_0_1"}) ∧
      ∃ w' ∈ after? (Pipeline.standard 1 5).compile w,
        w'.store.program.names = {"z", "C_f_2_5", "C_i_131328", "u", "C_f_0_1"} := by
    decide +kernel
  obtain ⟨w, hread, hcard, ⟨v, hstop, hnames⟩, w', hdone, hnames'⟩ := hruns
  obtain ⟨_, hload⟩ := exists_of_after? hread
  obtain ⟨_, hupTo⟩ := exists_of_after? hstop
  obtain ⟨_, hcompile⟩ := exists_of_after? hdone
  have hslots : (0 : Int) ≤ 5 := by decide
  obtain ⟨hmoments, r, w'', hrun, hend⟩ := slotsWithin_of_compile hload rfl 1 hslots
  obtain ⟨r', v', hrun', hthen⟩ := hmoments stop
  rw [hcompile, EStateM.Result.ok.injEq] at hrun
  rw [hupTo, EStateM.Result.ok.injEq] at hrun'
  obtain ⟨rfl, rfl⟩ := hrun
  obtain ⟨rfl, rfl⟩ := hrun'
  rw [hcard] at hend hthen
  exact ⟨w, v, w', hload, hcard, hupTo, hnames, hthen rfl, hcompile, hnames', hend rfl⟩

end Straightline
