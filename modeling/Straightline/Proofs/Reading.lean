import Mathlib.Data.List.Basic
import Straightline.Proofs.Consistency
import Straightline.Source.Reader

/-!
# Programs that were read

`Source.Statement temps i` says what a line can read as where the temporaries `temps` have been
defined: identifiers for destination and opcode, and operands that are literals, names, or
references to the latest definition of a temporary. `Store.Loaded` are the stores that one reaches
by adding such instructions, one after the other. Reading a text never faults and ends in such a
store (`Source.load_eq`), and a loaded store holds a valid program (`Store.Loaded.fresh`).
-/

set_option autoImplicit false

namespace Straightline

namespace Source

/-- The text of an identifier. -/
def IsName (s : String) : Prop := ∃ bytes, isIdent bytes = true ∧ toText bytes = s

/-- What an operand can be where the temporaries `temps` are defined. -/
inductive Operand (temps : List (String × InstId)) : Value → Prop where
  | literal {token : Bytes} {l : Literal} (h : parseLiteral token = .ok l) :
      Operand temps (.literal l)
  | name {s : String} (hs : IsName s) (ht : isTemp s = false) : Operand temps (.name s)
  | ref {s : String} {id : InstId} (hs : IsName s) (ht : isTemp s = true)
      (hl : temps.lookup s = some id) : Operand temps (.ref id)

/-- What a line can be where the temporaries `temps` are defined. -/
structure Statement (temps : List (String × InstId)) (i : Inst) : Prop where
  dst : IsName i.dst
  op : IsName i.op
  args : ∀ v ∈ i.args, Operand temps v
  nonempty : i.args ≠ []
  uses : i.uses = []

/-- What is read as an operand can be one. -/
theorem operand_of_parse {temps : List (String × InstId)} {token : Bytes} {v : Value}
    (h : parseOperand temps token = .ok v) : Operand temps v := by
  match token with
  | [] => simp [parseOperand] at h
  | b :: rest =>
    simp only [parseOperand] at h
    split at h
    · cases hl : parseLiteral (b :: rest) with
      | error e => simp [hl, Except.map] at h
      | ok l =>
          simp only [hl, Except.map, Except.ok.injEq] at h
          exact h ▸ .literal hl
    · split at h
      · simp at h
      · rename_i hident
        have hname : IsName (toText (b :: rest)) := ⟨b :: rest, by simpa using hident, rfl⟩
        split at h
        · rename_i ht
          rw [Except.ok.injEq] at h
          exact h ▸ .name hname (by simpa using ht)
        · rename_i ht
          split at h
          · rename_i id hl
            rw [Except.ok.injEq] at h
            exact h ▸ .ref hname (by simpa using ht) hl
          · simp at h

/-- Where every element succeeds, each result comes from an element. -/
theorem exists_mem_of_mapM_eq_ok {α β ε : Type} {f : α → Except ε β} {xs : List α} {ys : List β}
    (h : xs.mapM f = .ok ys) : ys.length = xs.length ∧ ∀ y ∈ ys, ∃ x ∈ xs, f x = .ok y := by
  induction xs generalizing ys with
  | nil =>
      rw [List.mapM_nil] at h
      cases h
      simp
  | cons x xs ih =>
      rw [List.mapM_cons] at h
      cases hx : f x with
      | error e => simp [hx, bind, Except.bind] at h
      | ok y =>
          cases hxs : xs.mapM f with
          | error e => simp [hx, hxs, bind, Except.bind] at h
          | ok ys' =>
              simp only [hx, hxs, bind, Except.bind, pure, Except.pure, Except.ok.injEq] at h
              subst h
              obtain ⟨hlen, hmem⟩ := ih hxs
              refine ⟨by simp [hlen], fun z hz => ?_⟩
              rcases List.mem_cons.mp hz with rfl | hz
              · exact ⟨x, by simp, hx⟩
              · obtain ⟨w, hw, e⟩ := hmem z hz
                exact ⟨w, by simp [hw], e⟩

/-- A line that can be read is a statement. -/
theorem statement_of_parse {temps : List (String × InstId)} {line : Bytes} {i : Inst}
    (h : parseStatement temps line = .ok i) : Statement temps i := by
  unfold parseStatement at h
  split at h
  · rename_i left right _
    split at h
    · rename_i callee list _
      split at h
      · simp at h
      · rename_i operands _
        simp only at h
        split at h
        · simp at h
        · rename_i hdst
          split at h
          · simp at h
          · rename_i hop
            split at h
            · simp at h
            · rename_i args hargs
              rw [Except.ok.injEq] at h
              subst h
              obtain ⟨hlen, hmem⟩ := exists_mem_of_mapM_eq_ok hargs
              refine ⟨⟨_, by simpa using hdst, rfl⟩, ⟨_, by simpa using hop, rfl⟩, ?_, ?_, rfl⟩
              · intro v hv
                obtain ⟨token, -, htoken⟩ := hmem v hv
                exact operand_of_parse htoken
              · rintro rfl
                exact List.splitOn_ne_nil _ _ (List.length_eq_zero_iff.mp hlen.symm)
    · simp at h
  · simp at h

end Source

namespace Store

/-- The store with one more instruction at the end, whose destination now means that instruction if
it is a temporary. -/
def add (s : Store) (i : Inst) : Store :=
  { s.appended i with
    temps := if i.isTemp then (i.dst, s.nextId) :: s.temps else s.temps }

/-- The stores that reading can lead to. -/
inductive Loaded : Store → Prop where
  | empty : Loaded {}
  | add {s : Store} {i : Inst} (h : Loaded s) (hi : Source.Statement s.temps i) : Loaded (s.add i)

/-- What a store that was read has to do with its program. -/
structure Fresh (s : Store) (p : Program) : Prop where
  holds : s.Holds p
  valid : p.Valid
  temps : ∀ e ∈ s.temps, e.2 ∈ p.order ∧ (p.inst e.2).dst = e.1 ∧ isTemp e.1 = true
  statement : ∀ id ∈ p.order, ∃ temps, Source.Statement temps (p.inst id)

/-- Only links, slots and ends matter for the program of a store. -/
theorem Holds.withTemps {s : Store} {p : Program} (h : s.Holds p)
    (temps : List (String × InstId)) : Holds { s with temps } p :=
  ⟨h.unshared, h.size, h.inst, h.free, h.live, h.nodup, h.known, h.head, h.tail, h.linked, h.loose⟩

end Store

namespace Program

variable {p : Program} {i : Inst}

theorem inst_append_of_known (i : Inst) {id : InstId} (h : p.Known id) :
    (p.append i).inst id = p.inst id :=
  inst_append_of_ne i (ne_nextId_of_known h)

theorem known_append {id : InstId} (h : p.Known id) : (p.append i).Known id := by
  simp only [Known, size_append] at h ⊢
  omega

theorem known_append_new : (p.append i).Known p.nextId := by
  simp only [Known, size_append, nextId]
  omega

/-- Appending keeps the order of any two. -/
theorem Precedes.append {a b : InstId} (h : p.Precedes a b) : (p.append i).Precedes a b :=
  List.Sublist.trans h (List.sublist_append_left _ _)

/-- All others precede an appended instruction. -/
theorem precedes_nextId {a : InstId} (h : a ∈ p.order) : (p.append i).Precedes a p.nextId :=
  (List.singleton_sublist.mpr h).append (List.Sublist.refl _)

/-- A new instruction may stand at the end if its references are valid. -/
theorem Valid.append (h : p.Valid) (huses : i.uses = [])
    (hargs : ∀ r, .ref r ∈ i.args → r ∈ p.order ∧ (p.inst r).isTemp = true) :
    (p.append i).Valid := by
  have hold : ∀ x ∈ p.order, (p.append i).inst x = p.inst x := fun x hx =>
    inst_append_of_known i (h.known x hx)
  have hnew : p.nextId ∉ p.order := fun hm => p.not_known_nextId (h.known _ hm)
  have hmem : ∀ x ∈ (p.append i).order, x ∈ p.order ∨ x = p.nextId := fun x hx => by
    simpa using hx
  refine ⟨?_, fun x hx => ?_, fun x hx r hr => ?_, fun x hx u hu => ?_⟩
  · rw [order_append, List.nodup_append']
    exact ⟨h.nodup, by simp, by simpa using hnew⟩
  · rcases hmem x hx with hx | rfl
    · exact known_append (h.known x hx)
    · exact known_append_new
  · rcases hmem x hx with hx | rfl
    · rw [hold x hx] at hr
      obtain ⟨hpre, ht⟩ := h.refs x hx r hr
      exact ⟨hpre.append, by rw [hold r hpre.left_mem]; exact ht⟩
    · rw [inst_append_new] at hr
      obtain ⟨hr, ht⟩ := hargs r hr
      exact ⟨precedes_nextId hr, by rw [hold r hr]; exact ht⟩
  · rcases hmem x hx with hx | rfl
    · rw [hold x hx] at hu
      exact known_append (h.uses x hx u hu)
    · rw [inst_append_new, huses] at hu
      simp at hu

end Program

namespace Store

/-- Adding an instruction to a store appends it to the program. -/
theorem Fresh.add {s : Store} {p : Program} (h : s.Fresh p) {i : Inst}
    (hi : Source.Statement s.temps i) : (s.add i).Fresh (p.append i) := by
  have hnext := h.holds.nextId_eq
  have hold : ∀ x ∈ p.order, (p.append i).inst x = p.inst x := fun x hx =>
    Program.inst_append_of_known i (h.valid.known x hx)
  have hkept : ∀ e ∈ s.temps, e.2 ∈ (p.append i).order ∧ ((p.append i).inst e.2).dst = e.1 ∧
      isTemp e.1 = true := by
    intro e he
    obtain ⟨hlive, hdst, ht⟩ := h.temps e he
    exact ⟨by simp [hlive], by rw [hold e.2 hlive]; exact hdst, ht⟩
  refine ⟨(h.holds.append i).withTemps _, h.valid.append hi.uses ?_, ?_, ?_⟩
  · intro r hr
    cases hi.args _ hr with
    | ref _ ht hl =>
        obtain ⟨hlive, hdst, -⟩ := h.temps _ (mem_of_lookup_eq_some hl)
        exact ⟨hlive, by rw [Inst.isTemp, hdst]; exact ht⟩
  · intro e he
    unfold Store.add at he
    dsimp only at he
    split at he
    · rename_i ht
      rcases List.mem_cons.mp he with rfl | he
      · dsimp only
        rw [hnext]
        exact ⟨by simp, by simp, ht⟩
      · exact hkept e he
    · exact hkept e he
  · intro id hid
    rcases List.mem_append.mp hid with hid | hid
    · rw [hold id hid]
      exact h.statement id hid
    · obtain rfl := List.mem_singleton.mp hid
      rw [Program.inst_append_new]
      exact ⟨s.temps, hi⟩

/-- A store that was read holds a valid program. -/
theorem Loaded.fresh {s : Store} (h : s.Loaded) : s.Fresh s.program := by
  have hex : ∃ p, s.Fresh p := by
    induction h with
    | empty => exact ⟨_, holds_empty, ⟨by simp, by simp, by simp, by simp⟩, by simp, by simp⟩
    | add _ hi ih =>
        obtain ⟨p, hp⟩ := ih
        exact ⟨_, hp.add hi⟩
  obtain ⟨p, hp⟩ := hex
  rw [hp.holds.program_eq]
  exact hp

end Store

namespace Source

/-- Adding an instruction of a line changes the store as it should. -/
theorem addInst_eq {w : Workspace} {p : Program} (h : w.store.Holds p) (line : Nat) (i : Inst) :
    ∃ w', addInst line i w = .ok () w' ∧ w'.store = w.store.add i := by
  have happend := append_eq h i
  unfold addInst
  simp only [bind, EStateM.bind, happend]
  by_cases ht : i.isTemp = true
  · simp only [ht, if_true, bindTemp, bind, EStateM.bind, run_get, run_modifyStore]
    have hstore : Store.add w.store i = { w.store.appended i with
        temps := (i.dst, w.store.nextId) :: (w.store.appended i).temps } := by
      simp [Store.add, ht, Store.temps_appended]
    cases Store.lookup (w.store.appended i) i.dst with
    | some old => exact ⟨_, rfl, hstore.symm⟩
    | none => exact ⟨_, rfl, hstore.symm⟩
  · rw [if_neg ht]
    refine ⟨_, rfl, ?_⟩
    rw [Store.add, if_neg ht, ← Store.temps_appended w.store i]

/-- A line that can be read adds what it reads as. -/
theorem readLine_of_parse {w : Workspace} (h : w.store.Loaded) (number : Nat) {line : Bytes}
    {i : Inst} (hp : parseStatement w.store.temps line = .ok i) :
    ∃ w', readLine number line w = .ok (.ok ()) w' ∧ w'.store = w.store.add i := by
  obtain ⟨w', hadd, hstore⟩ := addInst_eq h.fresh.holds number i
  refine ⟨w', ?_, hstore⟩
  unfold readLine
  simp only [bind, EStateM.bind, run_get, hp, hadd]
  rfl

/-- A line either is malformed, and nothing changes, or adds what it reads as. -/
theorem readLine_eq {w : Workspace} (h : w.store.Loaded) (number : Nat) (line : Bytes) :
    (∃ e, readLine number line w = .ok (.error e) w) ∨
      ∃ i w', parseStatement w.store.temps line = .ok i ∧
        readLine number line w = .ok (.ok ()) w' ∧ w'.store = w.store.add i := by
  cases hp : parseStatement w.store.temps line with
  | error reason =>
      refine .inl ⟨⟨number, line, reason⟩, ?_⟩
      unfold readLine
      simp only [bind, EStateM.bind, run_get, hp]
      rfl
  | ok i =>
      obtain ⟨w', hread, hstore⟩ := readLine_of_parse h number hp
      exact .inr ⟨i, w', rfl, hread, hstore⟩

/-- Reading lines ends without a fault, in a store that reading can lead to if it succeeds. -/
theorem readLines_eq (lines : List Bytes) (number : Nat) {w : Workspace} (h : w.store.Loaded) :
    ∃ r w', readLines number lines w = .ok r w' ∧ (r = .ok () → w'.store.Loaded) := by
  induction lines generalizing number w with
  | nil => exact ⟨_, w, rfl, fun _ => h⟩
  | cons line rest ih =>
      unfold readLines
      by_cases hlong : lineLimit ≤ line.length
      · rw [if_pos hlong]
        exact ⟨_, w, rfl, by simp⟩
      · rw [if_neg hlong]
        simp only [bind, EStateM.bind]
        rcases readLine_eq h number (dropReturn line) with ⟨e, he⟩ | ⟨i, w₁, hp, hr, hs⟩
        · rw [he]
          exact ⟨_, w, rfl, by simp⟩
        · rw [hr]
          exact ih (number + 1) (hs ▸ h.add (statement_of_parse hp))

/-- Reading a text never faults. It ends in a loaded store, or leaves the program as it was. -/
theorem load_eq (source : Bytes) (w : Workspace) :
    ∃ r w', load source w = .ok r w' ∧ (r = .ok () → w'.store.Loaded) ∧
      ∀ e, r = .error e → w'.store = w.store := by
  obtain ⟨r, w₁, hr, hloaded⟩ :=
    readLines_eq (lines source) 1 (w := { w with store := {} }) .empty
  have hread : readProgram source { w with store := {} } = .ok r w₁ := hr
  unfold load
  simp only [bind, EStateM.bind, run_get, run_modifyStore, hread]
  cases r with
  | ok u => exact ⟨_, w₁, rfl, fun _ => hloaded rfl, by simp⟩
  | error e => exact ⟨_, _, rfl, by simp, fun _ _ => rfl⟩

/-- A text that is accepted leaves a store that reading can lead to. -/
theorem loaded_of_load {source : Bytes} {w₀ w : Workspace}
    (h : load source w₀ = .ok (.ok ()) w) : w.store.Loaded := by
  obtain ⟨r, w', hl, hloaded, -⟩ := load_eq source w₀
  rw [h, EStateM.Result.ok.injEq] at hl
  obtain ⟨rfl, rfl⟩ := hl
  exact hloaded rfl

/-- The program that a text reads as. -/
def program? (source : Bytes) : Option Program :=
  match load source {} with
  | .ok (.ok ()) w => some w.store.program
  | _ => none

/-- The program of a text is the one that reading it leaves. -/
theorem exists_load_of_program? {source : Bytes} {p : Program} (h : p ∈ program? source) :
    ∃ w, load source {} = .ok (.ok ()) w ∧ w.store.program = p := by
  unfold program? at h
  split at h
  · rename_i w hw
    exact ⟨w, hw, Option.some.inj h⟩
  · simp at h

end Source

end Straightline
