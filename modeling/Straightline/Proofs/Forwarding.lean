import Straightline.Proofs.Preservation
import Straightline.Proofs.Rendering
import Straightline.Proofs.Runs

/-!
# Reading past moves

A consumer that reads past a move reads the source of the move later than the move did, and past a
chain of moves it reads what the first of them read. This keeps the runs of a program in which no
such source is written on the way (`sameRuns_of_forwardMoves`). The pass does not look for such
writes, and where there is one the result changes (`forwardMoves_reads_overwritten`).

Moves in the middle of a chain change their values while the pass is on its way, so the runs of the
programs in between are not compared. The walk instead carries one substitution that gives the
operands at hand from those that were read (`Forwarding`): an operand that was replaced led to its
replacement along moves of the program that was read (`Program.Leads`).
-/

set_option autoImplicit false

namespace Straightline

/-- Moves `v` into a temporary. -/
def Inst.Moves (i : Inst) (v : Value) : Prop :=
  i.op = Opcode.move ∧ i.isTemp = true ∧ i.args = [v]

namespace Program

/-- Following moves into temporaries, `v` stands for `w`, which was read by the move `m`. -/
inductive Leads (p : Program) : Value → InstId → Value → Prop
  | here {m : InstId} {w : Value} (hm : (p.inst m).Moves w) : Leads p (.ref m) m w
  | through {r m : InstId} {v w : Value} (hr : (p.inst r).Moves v) (h : Leads p v m w) :
      Leads p (.ref r) m w

/-- No name that a move reads is written between the move and an instruction that reads the name
past it. Moves into temporaries may do so: nothing reads them in the end. -/
def SourcesKept (p : Program) : Prop :=
  ∀ x ∈ p.order, (¬ ∃ v, (p.inst x).Moves v) → ∀ v ∈ (p.inst x).args, ∀ m n,
    p.Leads v m (.name n) → p.Unwritten n m x

variable {V : Type*} {I : Interpretation V} {p q : Program} {id m x : InstId} {v w u : Value}
  {rest : List InstId}

/-! ## What an operand stands for -/

/-- What leads somewhere ends at a move that reads it. -/
theorem Leads.moves (h : p.Leads v m w) : (p.inst m).Moves w := by
  induction h with
  | here hm => exact hm
  | through _ _ ih => exact ih

/-- Moves that lead on one after the other lead on together. -/
theorem Leads.trans {r : InstId} (h : p.Leads v r w) (h' : p.Leads w m u) : p.Leads v m u := by
  induction h with
  | here hr => exact .through hr h'
  | through hr _ ih => exact .through hr (ih h')

/-- The temporary that a move reads stands before what reads the move. -/
theorem precedes_of_moves (hp : p.Valid) (hmx : p.Precedes m x) (hm : (p.inst m).Moves v)
    (r : InstId) (hr : v = .ref r) : p.Precedes r x :=
  (hp.refs m hmx.left_mem r (by simp [hm.2.2, hr])).1.trans hp.nodup hmx

/-- The moves on the way stand before the instruction that reads past them. -/
theorem Leads.precedes (h : p.Leads v m w) (hp : p.Valid)
    (hx : ∀ r, v = .ref r → p.Precedes r x) : p.Precedes m x := by
  induction h with
  | here hm => exact hx _ rfl
  | through hr _ ih => exact ih (precedes_of_moves hp (hx _ rfl) hr)

/-- A temporary holds what the move into it read, as long as that is not written. -/
theorem operand_of_moves (hp : p.Valid) (hmove : ∀ v, I.op Opcode.move [v] = v)
    (hmx : p.Precedes m x) (hm : (p.inst m).Moves w)
    (hkept : ∀ n, w = .name n → p.Unwritten n m x) (s : State V) :
    I.operand (I.before p s x) (.ref m) = I.operand (I.before p s x) w := by
  obtain ⟨hop, ht, hargs⟩ := hm
  calc (I.before p s x).values m
      = I.result (I.before p s m) (p.inst m) := Interpretation.values_before hp.nodup hmx s
    _ = I.operand (I.before p s m) w := by
        rw [Interpretation.result, hop, hargs]
        exact hmove _
    _ = I.operand (I.before p s x) w := by
        refine (Interpretation.operand_before hp hmx (by simp [hargs]) (fun n hn => ?_) s).symm
        exact ⟨not_defines_of_isTemp ht, hkept n hn⟩

/-- An operand reads the same as what it stands for, as long as that is not written. -/
theorem Leads.operand (h : p.Leads v m w) (hp : p.Valid) (hmove : ∀ v, I.op Opcode.move [v] = v)
    (hx : ∀ r, v = .ref r → p.Precedes r x) (hkept : ∀ n, w = .name n → p.Unwritten n m x)
    (s : State V) : I.operand (I.before p s x) v = I.operand (I.before p s x) w := by
  induction h with
  | here hm => exact operand_of_moves hp hmove (hx _ rfl) hm hkept s
  | @through r m v w hr hv ih =>
      have hrx := hx r rfl
      -- a move that is not the last one reads a temporary, which nothing writes again
      have hv' : ∀ n, v ≠ .name n := by
        rintro n rfl
        cases hv
      rw [operand_of_moves hp hmove hrx hr (fun n hn => absurd hn (hv' n)) s]
      exact ih (precedes_of_moves hp hrx hr) hkept

/-- It is enough to look at every move together with every instruction that reads past a move. -/
theorem sourcesKept_of_unwritten (hp : p.Valid)
    (h : ∀ x ∈ p.order, (∃ r ∈ refsOf (p.inst x).args, (p.inst r).op = Opcode.move) →
      ∀ m ∈ p.order, (p.inst m).op = Opcode.move → ∀ n ∈ namesOf (p.inst m).args,
        p.Unwritten n m x) : p.SourcesKept := by
  intro x hx _ v hv m n hleads
  obtain ⟨r, rfl, hr⟩ : ∃ r, v = .ref r ∧ (p.inst r).op = Opcode.move := by
    cases hleads with
    | here hm => exact ⟨m, rfl, hm.1⟩
    | through hr _ => exact ⟨_, rfl, hr.1⟩
  have hmx := hleads.precedes hp fun r' hr' => (hp.refs x hx r' (hr' ▸ hv)).1
  obtain ⟨hop, -, hargs⟩ := hleads.moves
  exact h x hx ⟨r, mem_refsOf.mpr hv, hr⟩ m hmx.left_mem hop n (mem_namesOf.mpr (by simp [hargs]))

/-! ## The walk -/

/-- The program `q` is `p` without some moves into temporaries, and the substitution `f` takes every
operand to what it stands for. -/
structure Substitutes (p q : Program) (f : Value → Value) : Prop where
  leads : ∀ v, f v = v ∨ ∃ m, p.Leads v m (f v)
  order : q.order.Sublist p.order
  gone : ∀ x ∈ p.order, x ∉ q.order → (p.inst x).isTemp = true
  inst : ∀ x ∈ q.order, (q.inst x).dst = (p.inst x).dst ∧ (q.inst x).op = (p.inst x).op ∧
    (q.inst x).args = (p.inst x).args.map f

variable {f : Value → Value}

theorem Substitutes.start (p : Program) : Substitutes p p.analyze fun v => v where
  leads v := .inl rfl
  order := by rw [order_analyze]
  gone x hx hgone := by
    rw [order_analyze] at hgone
    exact absurd hx hgone
  inst x hx := by
    rw [order_analyze] at hx
    rw [inst_analyze hx]
    exact ⟨rfl, rfl, (List.map_id' _).symm⟩

/-- What stays moves something into a temporary exactly if it did before. -/
theorem Substitutes.moves_iff (h : Substitutes p q f) (hx : x ∈ q.order) :
    (∃ v, (q.inst x).Moves v) ↔ ∃ v, (p.inst x).Moves v := by
  obtain ⟨hdst, hop, hargs⟩ := h.inst x hx
  simp only [Inst.Moves, Inst.isTemp, hdst, hop, hargs, ← List.length_eq_one_iff,
    List.length_map, exists_and_left]

/-- What a move reads by now is what it led to at first. -/
theorem Substitutes.leads_of_forwardable (h : Substitutes p q f) (hid : id ∈ q.order)
    {source : Value} {uses : List InstId}
    (hf : (q.inst id).forwardable? = some (source, uses)) :
    (p.inst id).isTemp = true ∧ ∃ m, p.Leads (.ref id) m source := by
  obtain ⟨hop, ht, hargs, -⟩ := forwardable?_eq_some hf
  obtain ⟨hdst, hop', hargs'⟩ := h.inst id hid
  have htemp : (p.inst id).isTemp = true := by
    rw [Inst.isTemp, ← hdst]
    exact ht
  rw [hargs] at hargs'
  obtain ⟨v, hv, hsource⟩ := List.map_eq_singleton_iff.mp hargs'.symm
  have hmoves : (p.inst id).Moves v := ⟨hop'.symm.trans hop, htemp, hv⟩
  rcases h.leads v with hfv | ⟨m, hm⟩
  · rw [← hsource, hfv]
    exact ⟨htemp, id, .here hmoves⟩
  · rw [hsource] at hm
    exact ⟨htemp, m, .through hmoves hm⟩

/-- The move that is bypassed leads on to its source, and so does what has led to it so far. -/
theorem Substitutes.bypass (h : Substitutes p q f) (hq : q.Consistent) (hid : id ∈ q.order)
    {source : Value} {uses : List InstId}
    (hf : (q.inst id).forwardable? = some (source, uses)) :
    Substitutes p (q.bypass id source uses) fun v => if f v = .ref id then source else f v := by
  obtain ⟨htemp, m, hm⟩ := h.leads_of_forwardable hid hf
  obtain ⟨-, -, -, rfl⟩ := forwardable?_eq_some hf
  have horder : (q.bypass id source (q.inst id).uses).order = q.order.erase id := by
    simp [Program.bypass]
  refine ⟨fun v => ?_, ?_, fun x hx hgone => ?_, fun x hx => ?_⟩
  · split
    · rename_i hfv
      rcases h.leads v with hv | ⟨r, hr⟩
      · rw [← hv, hfv]
        exact .inr ⟨m, hm⟩
      · rw [hfv] at hr
        exact .inr ⟨m, hr.trans hm⟩
    · exact h.leads v
  · rw [horder]
    exact List.erase_sublist.trans h.order
  · by_cases hxid : x = id
    · rw [hxid]
      exact htemp
    · rw [horder, hq.nodup.mem_erase_iff] at hgone
      exact h.gone x hx fun hxq => hgone ⟨hxid, hxq⟩
  · have hxq : x ∈ q.order := List.mem_of_mem_erase (horder ▸ hx)
    obtain ⟨hdst, hop, hargs⟩ := h.inst x hxq
    rw [inst_bypass hq hid source hxq]
    refine ⟨hdst, hop, ?_⟩
    show (q.inst x).args.map _ = _
    rw [hargs, List.map_map]
    rfl

/-- A substitution keeps the runs of a program if no instruction that stays reads a name too late.
-/
theorem Substitutes.sameRuns (h : Substitutes p q f) (hp : p.Valid) (hq : q.Valid)
    (hmove : ∀ v, I.op Opcode.move [v] = v) (hk : p.SourcesKept)
    (hstay : ∀ x ∈ q.order, ¬ ∃ v, (p.inst x).Moves v) : I.SameRuns p q := by
  refine Interpretation.KeepsResults.sameRuns ⟨hq, h.order, h.gone, fun x hx n => ?_,
    fun s x hx => ?_⟩ hp.nodup
  · exact defines_iff_of_dst (h.order.subset hx) hx (h.inst x hx).1
  · have hxp := h.order.subset hx
    obtain ⟨-, hop, hargs⟩ := h.inst x hx
    rw [Interpretation.result, Interpretation.result, hop, hargs, List.map_map]
    congr 1
    apply List.map_congr_left
    intro v hv
    rcases h.leads v with hfv | ⟨m, hm⟩
    · exact congrArg (I.operand (I.before p s x)) hfv
    · refine (hm.operand hp hmove (fun r hr => ?_) (fun n hn => ?_) s).symm
      · exact (hp.refs x hxp r (hr ▸ hv)).1
      · exact hk x hxp (hstay x hx) v hv m n (hn ▸ hm)

/-- What holds at every visit: what is behind is not a move into a temporary. -/
structure Forwarding (p : Program) (rest : List InstId) (q : Program) : Prop where
  consistent : q.Consistent
  substitutes : ∃ f, Substitutes p q f
  behind : ∀ x ∈ q.order, x ∉ rest → ¬ ∃ v, (p.inst x).Moves v

theorem Forwarding.start (hp : p.Valid) : Forwarding p p.order p.analyze where
  consistent := hp.analyze
  substitutes := ⟨_, .start p⟩
  behind x hx hnot := by
    rw [order_analyze] at hx
    exact absurd hx hnot

/-- What is not a move into a temporary, or is already gone, is passed by. -/
theorem Forwarding.tail (h : Forwarding p (id :: rest) q)
    (hid : id ∈ q.order → ¬ ∃ v, (p.inst id).Moves v) : Forwarding p rest q where
  consistent := h.consistent
  substitutes := h.substitutes
  behind x hx hrest := by
    by_cases hxid : x = id
    · subst hxid
      exact hid hx
    · exact h.behind x hx (by simp [hxid, hrest])

/-- A visit forwards a move, or there is none to forward. -/
theorem Forwarding.step (h : Forwarding p (id :: rest) q) (hid : id ∈ q.order) :
    Forwarding p rest (q.forwardMove id) := by
  obtain ⟨f, hf⟩ := h.substitutes
  unfold forwardMove
  split
  · rename_i hnone
    refine h.tail fun _ hmoves => ?_
    obtain ⟨v, hop, ht, hargs⟩ := (hf.moves_iff hid).mpr hmoves
    simp [Inst.forwardable?, hop, ht, hargs] at hnone
  · rename_i source uses hsome
    refine ⟨h.consistent.bypass hid hsome, ⟨_, hf.bypass h.consistent hid hsome⟩,
      fun x hx hrest => ?_⟩
    have hx' : x ∈ q.order.erase id := by simpa [Program.bypass] using hx
    obtain ⟨hxid, hxq⟩ := h.consistent.nodup.mem_erase_iff.mp hx'
    exact h.behind x hxq (by simp [hxid, hrest])

/-- Forwarding leaves the instructions that the walk describes. -/
theorem walk_forwardMoves (hmove : ∀ v, I.op Opcode.move [v] = v) (hp : p.Valid)
    (hk : p.SourcesKept) : I.Walk p [] (p.analyze.sweep forwardMove) := by
  have hend : Forwarding p [] (p.analyze.sweep forwardMove) := by
    refine foldLive_induction_ahead (fun rest _ q => Forwarding p rest q) ?_ ?_
      p.analyze.order ?_
    · intro id rest _ q h hgone
      exact h.tail fun hid => absurd hid hgone
    · intro id rest _ q h hid
      exact h.step hid
    · rw [order_analyze]
      exact .start hp
  obtain ⟨f, hf⟩ := hend.substitutes
  exact {
    consistent := hend.consistent
    order := hf.order
    ahead := List.nil_suffix
    runs := hf.sameRuns hp hend.consistent.toValid hmove hk fun x hx => hend.behind x hx (by simp) }

end Program

/-- Forwarding the sources of moves in a program that was read and analysed keeps what every run
leaves in the names and what every instruction that stays computes, if no name that a move reads is
written before it is read past the move. -/
theorem sameRuns_of_forwardMoves {V : Type*} {I : Interpretation V} {source : Source.Bytes}
    {w₀ w : Workspace} (hload : Source.load source w₀ = .ok (.ok ()) w)
    (hmove : ∀ v, I.op Opcode.move [v] = v) (hkept : w.store.program.SourcesKept) :
    ∃ w', (do analyze; forwardMoves) w = .ok () w' ∧
      w'.store.program.order.Sublist w.store.program.order ∧
      I.SameRuns w.store.program w'.store.program := by
  have hfresh := (Source.loaded_of_load hload).fresh
  have hclosed := (computes_analyze hfresh.valid.closed).2
  exact (Program.walk_forwardMoves hmove hfresh.valid hkept).exists_sameRuns hload
    (visits_forwardMove.forEach hclosed).1

/-- A chain of two moves, a move of a name that was written before it, and names that are written
after the last instruction that reads past a move. -/
theorem sameRuns_of_forwarded_sources :
    let source := "T_a = move(x)\nT_b = move(T_a)\ny = add_f(T_b, y)\nT_c = move(y)\n" ++
      "z = mul_f(T_c, T_a)\nx = mul_f(x, z)\ny = add_f(x, y)\n"
    let output := "y = add_f(x, y)\nz = mul_f(y, x)\nx = mul_f(x, z)\ny = add_f(x, y)\n"
    ∃ w w', Source.load source.toUTF8.toList {} = .ok (.ok ()) w ∧
      w.store.program.SourcesKept ∧ (do analyze; forwardMoves) w = .ok () w' ∧
      w'.store.program.listing = output ∧
      Interpretation.words.SameRuns w.store.program w'.store.program := by
  intro source output
  have hruns : ∃ w ∈ after? (Source.load source.toUTF8.toList) {},
      (∀ x ∈ w.store.program.order, (∃ r ∈ refsOf (w.store.program.inst x).args,
          (w.store.program.inst r).op = Opcode.move) → ∀ m ∈ w.store.program.order,
        (w.store.program.inst m).op = Opcode.move → ∀ n ∈ namesOf (w.store.program.inst m).args,
          w.store.program.Unwritten n m x) ∧
      ∃ w' ∈ left? (do analyze; forwardMoves) w, w'.store.program.listing = output := by
    decide +kernel
  obtain ⟨w, hread, hunwritten, w', hdone, htext⟩ := hruns
  obtain ⟨_, hload⟩ := exists_of_after? hread
  obtain ⟨_, hforwarded⟩ := exists_of_left? hdone
  have hkept := Program.sourcesKept_of_unwritten (Source.loaded_of_load hload).fresh.valid
    hunwritten
  obtain ⟨w'', hrun, -, hsame⟩ :=
    sameRuns_of_forwardMoves hload Interpretation.lawful_words.move hkept
  rw [hforwarded, EStateM.Result.ok.injEq] at hrun
  obtain ⟨-, rfl⟩ := hrun
  exact ⟨w, w', hload, hkept, hforwarded, htext, hsame⟩

/-- A name that is written between a move and the consumer: the consumer reads what was written. -/
theorem forwardMoves_reads_overwritten :
    let source := "T_0 = move(x)\nx = add_f(x, b)\ny = add_f(T_0, c)\n"
    let output := "x = add_f(x, b)\ny = add_f(x, c)\n"
    let words := Interpretation.words
    let s : State UInt32 := ⟨fun _ => 0, fun n => if n = "x" then 2 else if n = "b" then 3 else 5⟩
    ∃ w w', Source.load source.toUTF8.toList {} = .ok (.ok ()) w ∧
      (∀ v, words.op Opcode.move [v] = v) ∧ (do analyze; forwardMoves) w = .ok () w' ∧
      w'.store.program.listing = output ∧ (words.run w.store.program s).names "y" = 7 ∧
      (words.run w'.store.program s).names "y" = 10 := by
  intro source output words s
  have hruns : ∃ w ∈ after? (Source.load source.toUTF8.toList) {},
      ∃ w' ∈ left? (do analyze; forwardMoves) w, w'.store.program.listing = output ∧
      (words.run w.store.program s).names "y" = 7 ∧
      (words.run w'.store.program s).names "y" = 10 := by decide +kernel
  obtain ⟨w, hread, w', hdone, htext, hbefore, hafter⟩ := hruns
  obtain ⟨_, hload⟩ := exists_of_after? hread
  obtain ⟨_, hforwarded⟩ := exists_of_left? hdone
  exact ⟨w, w', hload, Interpretation.lawful_words.move, hforwarded, htext, hbefore, hafter⟩

end Straightline
