import Mathlib.Data.List.Forall2
import Mathlib.Data.List.Induction
import Straightline.Proofs.Outcome
import Straightline.Proofs.RoundTrip
import Straightline.Proofs.Writable

/-!
# What the text of a program reads as

References go by identity in a program and by name in its text. A writable program without floats
has a text that can be read, whatever temporaries it defines (`Program.Writable.load_listing`). What
one gets is the same instruction by instruction, except that a reference leads to the latest
instruction with the destination that is written (`Program.Rereads`). Where no temporary is defined
twice, that is the instruction it led to before, and the two programs differ in the numbers of their
instructions only (`Program.Rereads.renumbers`).

The store that reading leads to is built along the program order (`Rereading.step`). That reading
the text leads to it is then a fact about loaded stores.
-/

set_option autoImplicit false

namespace Straightline

open Source

/-- What is on the right of a list relation is related to something on the left. -/
theorem exists_left_of_forall₂ {α β : Type*} {R : α → β → Prop} {l : List α} {m : List β}
    (h : List.Forall₂ R l m) {b : β} (hb : b ∈ m) : ∃ a ∈ l, R a b := by
  induction h with
  | nil => exact absurd hb (by simp)
  | @cons a c l m hac _ ih =>
      rcases List.mem_cons.mp hb with rfl | hb
      · exact ⟨a, by simp, hac⟩
      · obtain ⟨x, hx, hxb⟩ := ih hb
        exact ⟨x, by simp [hx], hxb⟩

namespace Program

/-- Operands of `q` and `p` that are written alike: a reference leads to an instruction with the
same destination. -/
inductive SameOperand (q p : Program) : Value → Value → Prop where
  | literal (l : Literal) : SameOperand q p (.literal l) (.literal l)
  | name (s : String) : SameOperand q p (.name s) (.name s)
  | ref {r r' : InstId} (hlive : r' ∈ p.order) (h : (p.inst r').dst = (q.inst r).dst) :
      SameOperand q p (.ref r) (.ref r')

/-- Instructions of `q` and `p` that are written alike. -/
structure SameLine (q p : Program) (i j : Inst) : Prop where
  dst : j.dst = i.dst
  op : j.op = i.op
  args : List.Forall₂ (SameOperand q p) i.args j.args

/-- The program `p` is written like the instructions `ids` of `q`. -/
def Rereads (q : Program) (ids : List InstId) (p : Program) : Prop :=
  List.Forall₂ (SameLine q p) (ids.map q.inst) (p.order.map p.inst)

variable {q p : Program}

/-- Operands that are written alike stay so when an instruction is appended. -/
theorem SameOperand.append {v v' : Value} (h : SameOperand q p v v') (hp : p.Valid) (i : Inst) :
    SameOperand q (p.append i) v v' := by
  cases h with
  | literal l => exact .literal l
  | name s => exact .name s
  | ref hlive hdst =>
      refine .ref (by simp [hlive]) ?_
      rw [inst_append_of_known i (hp.known _ hlive)]
      exact hdst

/-- Instructions that are written alike stay so when another one is appended. -/
theorem SameLine.append {i j : Inst} (h : SameLine q p i j) (hp : p.Valid) (k : Inst) :
    SameLine q (p.append k) i j :=
  ⟨h.dst, h.op, h.args.imp fun _ _ hv => hv.append hp k⟩

/-- Instructions that are written alike have the same text. -/
theorem SameLine.lineText {id x : InstId} (h : SameLine q p (q.inst id) (p.inst x)) :
    p.lineText x = q.lineText id := by
  have hargs : (q.inst id).args.map q.operandText = (p.inst x).args.map p.operandText := by
    rw [← List.forall₂_eq_eq_eq, List.forall₂_map_left_iff, List.forall₂_map_right_iff]
    refine h.args.imp fun v v' hv => ?_
    cases hv with
    | literal l => rfl
    | name s => rfl
    | ref _ hdst => exact hdst.symm
  unfold Program.lineText
  rw [h.dst, h.op, hargs]

/-- Instructions that are written alike have the same literals. -/
theorem SameLine.mem_literal {i j : Inst} (h : SameLine q p i j) {l : Literal}
    (hl : .literal l ∈ j.args) : .literal l ∈ i.args := by
  obtain ⟨v, hv, hsame⟩ := exists_left_of_forall₂ h.args hl
  cases hsame with
  | literal => exact hv

/-- Every instruction that was read again is written like one of the others. -/
theorem Rereads.exists_sameLine {ids : List InstId} (h : Rereads q ids p) {x : InstId}
    (hx : x ∈ p.order) : ∃ id ∈ ids, SameLine q p (q.inst id) (p.inst x) := by
  obtain ⟨i, hi, hsame⟩ := exists_left_of_forall₂ h (List.mem_map_of_mem hx)
  obtain ⟨id, hid, rfl⟩ := List.mem_map.mp hi
  exact ⟨id, hid, hsame⟩

/-- One more instruction that is written like the next one. -/
theorem Rereads.append {ids : List InstId} (h : Rereads q ids p) (hp : p.Valid) {id : InstId}
    {i : Inst} (hi : SameLine q p (q.inst id) i) : Rereads q (ids ++ [id]) (p.append i) := by
  have hold : p.order.map (p.append i).inst = p.order.map p.inst :=
    List.map_congr_left fun x hx => inst_append_of_known i (hp.known x hx)
  unfold Rereads
  rw [order_append, List.map_append, List.map_append, hold, List.map_singleton, List.map_singleton,
    inst_append_new]
  refine List.rel_append (h.imp fun _ _ hij => hij.append hp i) ?_
  exact .cons (hi.append hp i) .nil

end Program

open Program

/-! ## The store that reading leads to -/

/-- The store `s` with the program `p` is what one has read after the instructions `ids` of `q`. -/
structure Rereading (q : Program) (ids : List InstId) (s : Store) (p : Program) : Prop where
  loaded : s.Loaded
  fresh : s.Fresh p
  same : Rereads q ids p
  bound : ∀ id ∈ ids, (q.inst id).isTemp = true → (s.lookup (q.inst id).dst).isSome = true
  text : p.listing = ids.foldl (fun text id => text ++ q.lineText id) ""

/-- A choice for each element is a list of choices. -/
theorem exists_forall₂ {α β : Type} {R : α → β → Prop} {l : List α} (h : ∀ a ∈ l, ∃ b, R a b) :
    ∃ m, List.Forall₂ R l m := by
  induction l with
  | nil => exact ⟨[], .nil⟩
  | cons a l ih =>
      obtain ⟨b, hb⟩ := h a (by simp)
      obtain ⟨m, hm⟩ := ih fun x hx => h x (by simp [hx])
      exact ⟨b :: m, .cons hb hm⟩

namespace Rereading

variable {q p : Program} {ids : List InstId} {s : Store}

theorem start (q : Program) : Rereading q [] {} ({} : Store).program where
  loaded := .empty
  fresh := Store.Loaded.empty.fresh
  same := by
    rw [Store.holds_empty.program_eq]
    exact .nil
  bound := by simp
  text := by
    rw [Store.holds_empty.program_eq]
    rfl

/-- An operand whose reference leads to what was read already can be read. -/
theorem operand (h : Rereading q ids s p) {v : Value} (hv : v.Writable)
    (hint : ∀ l, v = .literal l → l.kind = .int)
    (href : ∀ r, v = .ref r → r ∈ ids ∧ (q.inst r).isTemp = true ∧ IsName (q.inst r).dst) :
    ∃ v', SameOperand q p v v' ∧ Operand s.temps v' := by
  cases hv with
  | @int n hn => exact ⟨_, .literal _, .literal (Written.int hn).ofText.2.2⟩
  | float bits => exact absurd (hint _ rfl) (by simp [Literal.ofFloatBits])
  | name hs ht => exact ⟨_, .name _, .name hs ht⟩
  | ref r =>
      obtain ⟨hr, ht, hname⟩ := href r rfl
      obtain ⟨r', hlookup⟩ := Option.isSome_iff_exists.mp (h.bound r hr ht)
      obtain ⟨hlive, hdst, -⟩ := h.fresh.temps _ (mem_of_lookup_eq_some hlookup)
      exact ⟨_, .ref hlive hdst, .ref hname ht hlookup⟩

/-- A temporary that means something still does when an instruction is read. -/
theorem lookup_add {i : Inst} {n : String} (hn : (s.lookup n).isSome = true) :
    ((s.add i).lookup n).isSome = true := by
  unfold Store.lookup Store.add at *
  dsimp only
  split
  · rw [List.lookup_cons]
    split
    · rfl
    · exact hn
  · exact hn

/-- One more instruction is read. -/
theorem step (h : Rereading q ids s p) {id : InstId} (hw : (q.inst id).Writable)
    (hf : (q.inst id).FloatFree)
    (hrefs : ∀ r, .ref r ∈ (q.inst id).args →
      r ∈ ids ∧ (q.inst r).isTemp = true ∧ IsName (q.inst r).dst) :
    ∃ s' p', Rereading q (ids ++ [id]) s' p' := by
  have hoperands : ∀ v ∈ (q.inst id).args, ∃ v', SameOperand q p v v' ∧ Operand s.temps v' := by
    intro v hv
    refine h.operand (hw.operands v hv) (fun l hl => ?_) fun r hr => ?_
    · exact hf l (hl ▸ hv)
    · exact hrefs r (hr ▸ hv)
  obtain ⟨args, hargs⟩ := exists_forall₂ hoperands
  have hsame : SameLine q p (q.inst id) { dst := (q.inst id).dst, op := (q.inst id).op, args } :=
    ⟨rfl, rfl, hargs.imp fun _ _ hv => hv.1⟩
  have hstatement : Statement s.temps { dst := (q.inst id).dst, op := (q.inst id).op, args } := by
    refine ⟨hw.dst, hw.op, fun v hv => ?_, ?_, rfl⟩
    · obtain ⟨_, -, hread⟩ := exists_left_of_forall₂ hargs hv
      exact hread.2
    · have hne := List.length_pos_iff.mpr hw.nonempty
      rw [hargs.length_eq] at hne
      exact List.length_pos_iff.mp hne
  have hvalid := h.fresh.valid
  refine ⟨_, _, h.loaded.add hstatement, h.fresh.add hstatement, h.same.append hvalid hsame, ?_, ?_⟩
  · intro x hx ht
    rcases List.mem_append.mp hx with hx | hx
    · exact lookup_add (h.bound x hx ht)
    · obtain rfl := List.mem_singleton.mp hx
      have htemp : ({ dst := (q.inst x).dst, op := (q.inst x).op, args } : Inst).isTemp = true := ht
      simp [Store.lookup, Store.add, htemp]
  · have hline : (p.append _).lineText p.nextId = q.lineText id :=
      SameLine.lineText (by rw [inst_append_new]; exact hsame.append hvalid _)
    rw [listing_append hvalid, h.text, hline, List.foldl_append]
    rfl

end Rereading

/-- A writable program without floats is written in a text that leads to some store. -/
theorem exists_rereading {q : Program} (hq : q.Valid) (hw : q.Writable) (hf : q.FloatFree) :
    ∃ s p, Rereading q q.order s p := by
  have key : ∀ ids : List InstId, ids.IsPrefix q.order → ∃ s p, Rereading q ids s p := by
    intro ids
    induction ids using List.reverseRecOn with
    | nil => exact fun _ => ⟨_, _, Rereading.start q⟩
    | append_singleton ids id ih =>
        intro hpre
        obtain ⟨rest, hrest⟩ := hpre
        have hsplit : q.order = ids ++ id :: rest := by rw [← hrest]; simp
        have hid : id ∈ q.order := by simp [hsplit]
        obtain ⟨s, p, h⟩ := ih ⟨id :: rest, hsplit.symm⟩
        refine h.step (hw id hid) (hf id hid) fun r hr => ?_
        obtain ⟨hbefore, ht⟩ := hq.refs id hid r hr
        exact ⟨(precedes_iff_mem_left hq.nodup hsplit).mp hbefore, ht,
          (hw r hbefore.left_mem).dst⟩
  exact key q.order (List.prefix_refl _)

/-- The text of a writable program without floats can be read if its lines are not too long. One
gets a program that is written alike. -/
theorem Program.Writable.load_listing {q : Program} (hw : q.Writable) (hq : q.Valid)
    (hf : q.FloatFree)
    (hshort : ∀ line ∈ lines (ofText q.listing), line.length < lineLimit) (w : Workspace) :
    ∃ w', load (ofText q.listing) w = .ok (.ok ()) w' ∧ Rereads q q.order w'.store.program ∧
      w'.store.program.listing = q.listing ∧ w'.store.program.order.Nodup := by
  obtain ⟨s, p, h⟩ := exists_rereading hq hw hf
  have htext : p.listing = q.listing := h.text
  have hprogram : s.program = p := h.fresh.holds.program_eq
  rw [← htext, ← hprogram] at hshort
  obtain ⟨w', hload, rfl⟩ := h.loaded.load_listing hshort w
  rw [hprogram, htext] at hload
  refine ⟨w', hload, ?_⟩
  rw [hprogram]
  exact ⟨h.same, htext, h.fresh.valid.nodup⟩

/-! ## Renumbering -/

/-- The operand with references to other numbers. -/
def Value.renumber (f : InstId → InstId) : Value → Value
  | .ref r => .ref (f r)
  | v => v

namespace Program

/-- The program `p` is the program `q` with the live instructions renumbered by `f`: they stand in
the same order and have the same destinations, opcodes and operands, where references lead to the
instructions that they led to before. Use-sets are not part of it. -/
structure Renumbers (q p : Program) (f : InstId → InstId) : Prop where
  order : p.order = q.order.map f
  inj : ∀ x ∈ q.order, ∀ y ∈ q.order, f x = f y → x = y
  dst : ∀ id ∈ q.order, (p.inst (f id)).dst = (q.inst id).dst
  op : ∀ id ∈ q.order, (p.inst (f id)).op = (q.inst id).op
  args : ∀ id ∈ q.order, (p.inst (f id)).args = (q.inst id).args.map (Value.renumber f)

/-- No temporary is defined twice. -/
def TempsOnce (p : Program) : Prop :=
  ∀ x ∈ p.order, ∀ y ∈ p.order, (p.inst x).isTemp = true → (p.inst x).dst = (p.inst y).dst → x = y

variable {q p : Program}

/-- Lists that agree element by element are images of each other. -/
theorem exists_map_of_forall₂ {R : InstId → InstId → Prop} {l m : List InstId}
    (h : List.Forall₂ R l m) (hn : l.Nodup) : ∃ f, m = l.map f ∧ ∀ x ∈ l, R x (f x) := by
  induction h with
  | nil => exact ⟨id, rfl, by simp⟩
  | @cons a b l m hab _ ih =>
      obtain ⟨ha, hl⟩ := List.nodup_cons.mp hn
      obtain ⟨f, rfl, hf⟩ := ih hl
      have hsame : ∀ x ∈ l, Function.update f a b x = f x := by
        intro x hx
        have hne : x ≠ a := fun e => ha (e ▸ hx)
        exact Function.update_of_ne hne _ _
      refine ⟨Function.update f a b, ?_, fun x hx => ?_⟩
      · rw [List.map_cons, Function.update_self]
        exact congrArg (b :: ·) (List.map_congr_left fun x hx => (hsame x hx).symm)
      · rcases List.mem_cons.mp hx with rfl | hx
        · rw [Function.update_self]
          exact hab
        · rw [hsame x hx]
          exact hf x hx

/-- Where no temporary is defined twice, the destination of a reference tells where it leads. -/
theorem Rereads.renumbers (h : Rereads q q.order p) (hq : q.Valid) (hn : p.order.Nodup)
    (hone : q.TempsOnce) : ∃ f, Renumbers q p f := by
  unfold Rereads at h
  rw [List.forall₂_map_left_iff, List.forall₂_map_right_iff] at h
  obtain ⟨f, horder, hf⟩ := exists_map_of_forall₂ h hq.nodup
  refine ⟨f, horder, List.inj_on_of_nodup_map (horder ▸ hn), fun id hid => (hf id hid).dst,
    fun id hid => (hf id hid).op, fun id hid => ?_⟩
  have hmem := (List.forall₂_and_left (p := (· ∈ (q.inst id).args)) _ _).mpr
    ⟨fun _ hv => hv, (hf id hid).args⟩
  symm
  rw [← List.forall₂_eq_eq_eq, List.forall₂_map_left_iff]
  refine hmem.imp fun v v' hv => ?_
  obtain ⟨hv, hsame⟩ := hv
  cases hsame with
  | literal l => rfl
  | name s => rfl
  | @ref r r' hlive hdst =>
      obtain ⟨hbefore, ht⟩ := hq.refs id hid r hv
      rw [horder] at hlive
      obtain ⟨y, hy, rfl⟩ := List.mem_map.mp hlive
      rw [(hf y hy).dst] at hdst
      rw [hone r hbefore.left_mem y hy ht hdst.symm]
      rfl

end Program

end Straightline
