import Mathlib.Data.List.Basic
import Straightline.Listing
import Straightline.Proofs.Lowered

/-!
# Programs as text

What the two listings give: `Program.listing` is the text of every program, and `Program.emit` the
text for the target, which is the same text if no float literal is left and a failure otherwise
(`Program.emit_eq_ok_iff`).
-/

set_option autoImplicit false

namespace Straightline

namespace Program

/-- The text of an operand. -/
def operandText (p : Program) : Value → String
  | .ref id => (p.inst id).dst
  | .name s => s
  | .literal l => l.text

/-- One line of a listing. -/
def lineText (p : Program) (id : InstId) : String :=
  (p.inst id).dst ++ " = " ++ (p.inst id).op ++ "("
    ++ ", ".intercalate ((p.inst id).args.map p.operandText) ++ ")\n"

/-- The text of a program. -/
def listing (p : Program) : String := p.order.foldl (fun text id => text ++ p.lineText id) ""

/-- One line more for the target, if it holds no float literal. -/
def emitLine (p : Program) (result : Except Survivor String) (id : InstId) :
    Except Survivor String :=
  match result, (p.inst id).survivor? with
  | .error e, _ => .error e
  | .ok _, some e => .error e
  | .ok text, none => .ok (text ++ p.lineText id)

/-- The text of a program for the target. -/
def emit (p : Program) : Except Survivor String := p.order.foldl p.emitLine (.ok "")

end Program

/-- Actions that compute a value each, one after the other, compute the list. -/
theorem computes_mapM {α β : Type} {p : Program} {f : α → Action β} (g : α → β) (l : List α)
    (h : ∀ a ∈ l, Computes (f a) p (g a) p) : Computes (l.mapM f) p (l.map g) p := by
  induction l with
  | nil => exact computes_pure _
  | cons a l ih =>
      rw [List.mapM_cons]
      have hl := ih fun b hb => h b (by simp [hb])
      exact (h a (by simp)).bind (hl.bind (computes_pure _))

/-- The text of a line is computed. -/
theorem computes_lineText {p : Program} (hp : p.Closed) {id : InstId} (hid : id ∈ p.order) :
    Computes (lineText id) p (p.lineText id) p := by
  refine (computes_read (hp.known id hid) fun i => i).bind ?_
  refine (computes_mapM p.operandText _ fun v hv => ?_).bind (computes_pure _)
  cases v with
  | literal l => exact computes_pure _
  | name s => exact computes_pure _
  | ref r => exact computes_read (hp.args id hid r hv) (·.dst)

/-- Every program has a listing. -/
theorem computes_listing {p : Program} (hp : p.Closed) : Computes listing p p.listing p := by
  apply computes_foldEach_of_same (fun text id => text ++ p.lineText id)
  intro text id hid
  exact (computes_lineText hp hid).bind (computes_pure _)

/-- The text for the target is computed. -/
theorem computes_emit {p : Program} (hp : p.Closed) : Computes emit p p.emit p := by
  apply computes_foldEach_of_same p.emitLine
  intro result id hid
  cases result with
  | error e => exact computes_pure _
  | ok text =>
      refine (computes_lineText hp hid).bind ?_
      refine (computes_read (hp.known id hid) Inst.survivor?).bind ?_
      unfold Program.emitLine
      cases (p.inst id).survivor? with
      | some e => exact computes_pure _
      | none => exact computes_pure _

/-- An instruction is in the way exactly if it has a float literal. -/
theorem survivor?_eq_none_iff (i : Inst) : i.survivor? = none ↔ i.FloatFree := by
  have key : ∀ (args : List Value) (found : Option Survivor),
      args.foldl (Survivor.next i.dst) found = none ↔
        found = none ∧ ∀ l, .literal l ∈ args → l.kind = .int := by
    intro args
    induction args with
    | nil => simp
    | cons v args ih =>
        intro found
        rw [List.foldl_cons, ih]
        cases v with
        | ref r => simp [Survivor.next]
        | name s => simp [Survivor.next]
        | literal l =>
            obtain ⟨kind, bits⟩ := l
            cases kind with
            | int => simp [Survivor.next]
            | float => simp [Survivor.next]
  refine (key i.args none).trans ?_
  simp [Inst.FloatFree]

namespace Program

/-- After a float no more is written. -/
theorem foldl_emitLine_error (p : Program) (ids : List InstId) (e : Survivor) :
    ids.foldl p.emitLine (.error e) = .error e := by
  induction ids with
  | nil => rfl
  | cons id ids ih => exact ih

/-- Lines without floats are written one after the other. -/
theorem foldl_emitLine_ok (p : Program) (ids : List InstId) (text : String)
    (h : ∀ id ∈ ids, (p.inst id).FloatFree) : ids.foldl p.emitLine (.ok text) =
      .ok (ids.foldl (fun text id => text ++ p.lineText id) text) := by
  induction ids generalizing text with
  | nil => rfl
  | cons id ids ih =>
      have hid : p.emitLine (.ok text) id = .ok (text ++ p.lineText id) := by
        simp only [emitLine, (survivor?_eq_none_iff _).mpr (h id (by simp))]
      rw [List.foldl_cons, hid, ih _ fun x hx => h x (by simp [hx])]
      rfl

/-- Lines that are written have no floats. -/
theorem floatFree_of_foldl_emitLine {p : Program} (ids : List InstId) {text text' : String}
    (h : ids.foldl p.emitLine (.ok text) = .ok text') : ∀ id ∈ ids, (p.inst id).FloatFree := by
  induction ids generalizing text with
  | nil => simp
  | cons id ids ih =>
      rw [List.foldl_cons] at h
      cases hs : (p.inst id).survivor? with
      | some e =>
          have herror : p.emitLine (.ok text) id = .error e := by simp only [emitLine, hs]
          rw [herror, foldl_emitLine_error] at h
          simp at h
      | none =>
          have hok : p.emitLine (.ok text) id = .ok (text ++ p.lineText id) := by
            simp only [emitLine, hs]
          rw [hok] at h
          intro x hx
          rcases List.mem_cons.mp hx with rfl | hx
          · exact (survivor?_eq_none_iff _).mp hs
          · exact ih h x hx

/-- A program without floats is written as its listing. -/
theorem emit_of_floatFree {p : Program} (h : p.FloatFree) : p.emit = .ok p.listing :=
  foldl_emitLine_ok p p.order "" h

/-- The target gets the text of a program exactly if no float literal is left. -/
theorem emit_eq_ok_iff (p : Program) (text : String) :
    p.emit = .ok text ↔ p.FloatFree ∧ text = p.listing := by
  constructor
  · intro h
    have hfree : p.FloatFree := floatFree_of_foldl_emitLine p.order h
    rw [emit_of_floatFree hfree, Except.ok.injEq] at h
    exact ⟨hfree, h.symm⟩
  · rintro ⟨hfree, rfl⟩
    exact emit_of_floatFree hfree

end Program

end Straightline
