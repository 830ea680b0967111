import Straightline.Proofs.Consistency
import Straightline.Proofs.Frames
import Straightline.Proofs.Histories

/-!
# What the analysis records

The analysis goes over the program twice: the first time it empties the use-sets, the second time
every instruction enters itself into the use-sets of what it refers to. It needs nothing of the
use-sets that it finds, not even that they hold identities of instructions, so it can be run on any
store that is well linked and whose references lead to live instructions. What it leaves in a
use-set is the list of the consumers (`Program.consumers`), and nothing else in the workspace
changes (`uses_of_analyze`).
-/

set_option autoImplicit false

namespace Straightline

namespace Program

variable {p : Program}

/-- The first sweep leaves a program in which nothing that does not exist is mentioned, whatever the
use-sets held. -/
theorem closed_sweep_clearUses (hn : p.order.Nodup) (hk : ∀ id ∈ p.order, p.Known id)
    (h : p.RefsLive) : (p.sweep clearUses).Closed := by
  have horder : (p.sweep clearUses).order = p.order := by
    rw [sweep_eq_foldl order_clearUses, order_foldl_of_same order_clearUses]
  have hsize : (p.sweep clearUses).size = p.size := size_sweep size_clearUses p
  have hknown : ∀ id ∈ p.order, (p.sweep clearUses).Known id := fun id hid => by
    rw [Known, hsize]
    exact hk id hid
  have hinst : ∀ id ∈ p.order, (p.sweep clearUses).inst id = { p.inst id with uses := [] } := by
    intro id hid
    rw [sweep_eq_foldl order_clearUses, inst_foldl_clearUses, if_pos hid]
  constructor
  case nodup => rwa [horder]
  case known => rwa [horder]
  case args =>
    intro id hid r hr
    rw [horder] at hid
    rw [hinst id hid] at hr
    exact hknown r (h id hid r hr)
  case uses =>
    intro id hid u hu
    rw [horder] at hid
    rw [hinst id hid] at hu
    exact absurd hu (by simp)

end Program

/-- The analysis runs whatever the use-sets held. -/
theorem computes_analyze_of_refsLive {p : Program} (hn : p.order.Nodup)
    (hk : ∀ id ∈ p.order, p.Known id) (h : p.RefsLive) : Computes analyze p () p.analyze := by
  have hclear : Computes (forEach clearUses) p () (p.sweep Program.clearUses) :=
    computes_forEach (fun q => ∀ id ∈ q.order, q.Known id)
      (fun q id hq _ hid => ⟨computes_edit (hq id hid) _, hq, .of_order_eq hid rfl rfl⟩) hk
  exact hclear.bind (visits_recordUses.forEach (Program.closed_sweep_clearUses hn hk h)).1

/-- Everything in a workspace but the arena stands aside from the slots. -/
theorem asideSlots_arena :
    AsideSlots fun w => { w with store := { w.store with toArena := {} } } where
  slot w id f _ := by
    unfold Store.modifySlot
    split <;> rfl

/-- The analysis leaves the workspace with another arena. -/
theorem eq_of_analyze {w w' : Workspace} (h : analyze w = .ok () w') :
    w' = { w with store := { w.store with toArena := w'.store.toArena } } := by
  have hrest := (Keeps.analyze asideSlots_arena).of_ok h
  exact congrArg (fun v => { v with store := { v.store with toArena := w'.store.toArena } }) hrest

/-- Where references lead to live instructions, the analysis succeeds. The use-set of a live
instruction is then the list of its consumers, in program order and once per operand that refers to
it, whatever it was before. Nothing else changes, and nothing at all changes the second time. -/
theorem uses_of_analyze {w : Workspace} {p : Program} (h : w.store.Holds p) (hrefs : p.RefsLive) :
    ∃ w', analyze w = .ok () w' ∧
      (∀ id, w'.store.slot? id = (w.store.slot? id).map fun slot =>
        if slot.live then { slot with inst := { slot.inst with uses := p.consumers id } }
        else slot) ∧
      w' = { w with store := { w.store with toArena := w'.store.toArena } } ∧
      analyze w' = .ok () w' := by
  obtain ⟨w', hrun, hholds⟩ := computes_analyze_of_refsLive h.nodup h.known hrefs w h
  refine ⟨w', hrun, fun id => ?_, eq_of_analyze hrun, ?_⟩
  · rw [h.slot?_eq hholds p.order_analyze p.size_analyze id]
    refine Option.map_congr fun slot hslot => ?_
    have hinst := h.inst_of_slot hslot
    by_cases hlive : slot.live = true
    · have hid : id ∈ p.order := (h.live id slot hslot).mp hlive
      rw [if_pos hlive, Program.inst_analyze hid, hinst]
    · have hid : id ∉ p.order := mt (h.live id slot hslot).mpr hlive
      rw [if_neg hlive, Program.inst_analyze_of_not_mem hrefs hid, ← hinst]
  · obtain ⟨w'', hagain, hholds'⟩ :=
      computes_analyze_of_refsLive hholds.nodup hholds.known hrefs.analyze w' hholds
    rw [hrefs.analyze_analyze] at hholds'
    have hrest := eq_of_analyze hagain
    have htemps : w''.store.temps = w'.store.temps := by rw [hrest]
    have hstore : w''.store = w'.store := hholds.eq_of_temps_eq hholds' htemps
    rw [hagain, hrest, hstore]

/-- A history with use-sets that make no sense, a reference to a later instruction, one of an
instruction to itself, and an instruction that was unlinked. -/
theorem uses_of_analyzed_history :
    let changes : List Change := [
      .append (.made
        { dst := "a", op := "f", args := [.ref ⟨1⟩, .ref ⟨0⟩, .ref ⟨1⟩], uses := [⟨9⟩, ⟨-1⟩] }),
      .append (.made { dst := "b", op := "g", args := [.name "x"], uses := [⟨1⟩, ⟨0⟩] }),
      .append (.made { dst := "c", op := "h", args := [.ref ⟨1⟩], uses := [⟨0⟩] }),
      .prepend (.made { dst := "d", op := "g", args := [.ref ⟨1⟩] }),
      .unlink ⟨2⟩]
    let p := changes.foldl Program.change .empty
    let w := replay changes {}
    w.store.Holds p ∧ p.RefsLive ∧ ∃ w', analyze w = .ok () w' ∧
      [⟨0⟩, ⟨1⟩, ⟨2⟩, ⟨3⟩].map (fun id => (w'.store.slot? id).map (·.inst.uses)) =
        [some [⟨0⟩], some [⟨3⟩, ⟨0⟩, ⟨0⟩], some [⟨0⟩], some []] ∧
      analyze w' = .ok () w' := by
  intro changes p w
  have hholds : w.store.Holds p := holds_replay changes Store.holds_empty (by decide)
  have hrefs : p.RefsLive := by decide +kernel
  obtain ⟨w', hrun, hslots, -, hagain⟩ := uses_of_analyze hholds hrefs
  refine ⟨hholds, hrefs, w', hrun, ?_, hagain⟩
  simp only [hslots]
  decide +kernel

end Straightline
