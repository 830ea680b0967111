import Mathlib.Data.List.Basic
import Straightline.Lowering
import Straightline.Pass.Lift

/-!
# Integers that can be encoded

What lowering does to an integer operand is a matter of the instruction alone. `encodeInteger_eq_ok`
and `encodeInteger_eq_error` list the cases for one integer. For a whole instruction the first
integer decides: lowering meets it with the opcode that the instruction had from the beginning, and
once it is encoded the opcode takes all further integers in place. `Inst.Offending` says which
instructions cannot be lowered, `Inst.offence?` is what is then reported, and `Inst.Scanned` what a
scan of the operands knows about it on the way.
-/

set_option autoImplicit false

namespace Straightline

theorem Opcode.isImmediate_luImm : isImmediate luImm = true := by decide

theorem Opcode.isImmediate_orIImm : isImmediate orIImm = true := by decide

/-- The form of an opcode that takes an integer in place is known as such. -/
theorem Opcode.isImmediate_append (op : String) : isImmediate (op ++ immediateMark) = true := by
  unfold isImmediate
  rw [List.isSuffixOf_iff_suffix, String.toList_append]
  exact List.suffix_append _ _

/-! ## One integer -/

/-- The three ways in which an integer is encoded: a move sets upper bits, an opcode has the integer
in place already, or it gets its immediate form. -/
theorem encodeInteger_eq_ok {l : Literal} {i i' : Inst} (h : encodeInteger l i = .ok i') :
    (i.op = Opcode.move ∧ l.low = 0 ∧
        i' = { i with op := Opcode.luImm, args := [immediate l.high] }) ∨
      (Opcode.isImmediate i.op = true ∧ i' = i) ∨
      ((i.op = Opcode.gtI ∨ i.op = Opcode.subI) ∧
        i' = { i with op := i.op ++ Opcode.immediateMark }) := by
  unfold encodeInteger at h
  split at h
  · rename_i hmove
    split at h
    · rename_i hlow
      rw [Except.ok.injEq] at h
      exact .inl ⟨hmove, hlow, h.symm⟩
    · exact absurd h (by simp)
  · split at h
    · rename_i himm
      rw [Except.ok.injEq] at h
      exact .inr (.inl ⟨himm, h.symm⟩)
    · split at h
      · rename_i himm
        rw [Except.ok.injEq] at h
        refine .inr (.inr ⟨?_, h.symm⟩)
        unfold hasImmediateForm at himm
        simpa using himm
      · exact absurd h (by simp)

/-- An instruction with an encoded integer takes integers in place. -/
theorem isImmediate_of_encodeInteger {l : Literal} {i i' : Inst} (h : encodeInteger l i = .ok i') :
    Opcode.isImmediate i'.op = true := by
  rcases encodeInteger_eq_ok h with ⟨-, -, rfl⟩ | ⟨himm, rfl⟩ | ⟨-, rfl⟩
  · exact Opcode.isImmediate_luImm
  · exact himm
  · exact Opcode.isImmediate_append i.op

/-- Encoding keeps what the rest of the program sees of an instruction; its operands stay, or are
replaced by a single integer. -/
theorem of_encodeInteger {l : Literal} {i i' : Inst} (h : encodeInteger l i = .ok i') :
    i'.dst = i.dst ∧ i'.uses = i.uses ∧ (i'.args = i.args ∨ i'.args = [immediate l.high]) := by
  rcases encodeInteger_eq_ok h with ⟨-, -, rfl⟩ | ⟨-, rfl⟩ | ⟨-, rfl⟩
  · exact ⟨rfl, rfl, .inr rfl⟩
  · exact ⟨rfl, rfl, .inl rfl⟩
  · exact ⟨rfl, rfl, .inl rfl⟩

/-- Nothing is left to do where the opcode takes the integer in place. -/
theorem encodeInteger_of_isImmediate (l : Literal) {i : Inst}
    (h : Opcode.isImmediate i.op = true) : encodeInteger l i = .ok i := by
  have hmove : i.op ≠ Opcode.move := by
    intro e
    rw [e] at h
    exact absurd h (by decide)
  rw [encodeInteger, if_neg hmove, if_pos h]

/-- The opcode of the instruction has no form that takes this integer. A move takes the upper bits
of an integer and no others. -/
def Inst.Unencodable (i : Inst) (l : Literal) : Prop :=
  (i.op = Opcode.move ∧ l.low ≠ 0) ∨
    i.op ∉ [Opcode.move, Opcode.gtI, Opcode.subI] ∧ Opcode.isImmediate i.op = false

/-- What is reported about an unencodable integer. -/
def Inst.complaint (i : Inst) (l : Literal) : Unsupported :=
  if i.op = Opcode.move then .lowField i.op l else .noImmediateForm i.op l

@[simp] theorem Inst.op_complaint (i : Inst) (l : Literal) : (i.complaint l).op = i.op := by
  unfold complaint
  split <;> rfl

/-- An integer cannot be encoded exactly if the opcode has no form for it, and this is what is
reported. -/
theorem encodeInteger_eq_error {l : Literal} {i : Inst} {e : Unsupported} :
    encodeInteger l i = .error e ↔ i.Unencodable l ∧ e = i.complaint l := by
  have hop : hasImmediateForm i.op = true ↔ i.op = Opcode.gtI ∨ i.op = Opcode.subI := by
    simp [hasImmediateForm]
  have herror : ∀ e' : Unsupported, (Except.error e' : Except Unsupported Inst) = .error e ↔
      e = e' := fun e' => by rw [Except.error.injEq, eq_comm]
  unfold encodeInteger Inst.Unencodable Inst.complaint
  by_cases hmove : i.op = Opcode.move
  · by_cases hlow : l.low = 0
    · simp [hmove, hlow]
    · rw [if_pos hmove, if_neg hlow, herror]
      simp [hmove, hlow]
  · by_cases himm : Opcode.isImmediate i.op = true
    · simp [hmove, himm]
    · by_cases hform : hasImmediateForm i.op = true
      · simp [hmove, himm, hform, hop.mp hform]
      · rw [if_neg hmove, if_neg himm, if_neg hform, herror]
        simp [hmove, himm, not_or.mp (mt hop.mpr hform)]

/-- Whether an integer can be encoded is a matter of the opcode. -/
theorem encodeInteger_congr {l : Literal} {i j : Inst} (h : j.op = i.op) {e : Unsupported} :
    encodeInteger l j = .error e ↔ encodeInteger l i = .error e := by
  rw [encodeInteger_eq_error, encodeInteger_eq_error, Inst.Unencodable, Inst.Unencodable,
    Inst.complaint, Inst.complaint, h]

/-! ## The operands of an instruction -/

@[simp] theorem mem_literalsOf {args : List Value} {l : Literal} :
    l ∈ literalsOf args ↔ Value.literal l ∈ args := by
  simp only [literalsOf, List.mem_filterMap]
  constructor
  · rintro ⟨v, hv, h⟩
    cases v <;> simp at h
    exact h ▸ hv
  · intro h
    exact ⟨_, h, rfl⟩

namespace Inst

/-- The first integer literal among the operands. -/
def firstInteger? (i : Inst) : Option Literal := (literalsOf i.args).find? (·.kind = .int)

/-- The instruction has an integer operand, and the first one is unencodable. -/
def Offending (i : Inst) : Prop := ∃ l, i.firstInteger? = some l ∧ i.Unencodable l

/-- What is unsupported about an instruction, if anything is. -/
def offence? (i : Inst) : Option Unsupported :=
  match i.firstInteger? with
  | none => none
  | some l =>
    match encodeInteger l i with
    | .ok _ => none
    | .error e => some e

variable {i j : Inst} {l : Literal} {e : Unsupported} {n : Nat}

/-- An offence is that of the first integer. -/
theorem offence?_eq_some_iff :
    i.offence? = some e ↔ ∃ l, i.firstInteger? = some l ∧ encodeInteger l i = .error e := by
  unfold offence?
  cases i.firstInteger? with
  | none => simp
  | some l => cases hcode : encodeInteger l i <;> simp [hcode]

/-- There is no offence exactly if the instruction does not offend. -/
theorem offence?_eq_none_iff : i.offence? = none ↔ ¬ i.Offending := by
  rw [Option.eq_none_iff_forall_ne_some]
  constructor
  · rintro h ⟨l, hl, hbad⟩
    exact h _ (offence?_eq_some_iff.mpr ⟨l, hl, encodeInteger_eq_error.mpr ⟨hbad, rfl⟩⟩)
  · intro h e he
    obtain ⟨l, hl, hcode⟩ := offence?_eq_some_iff.mp he
    exact h ⟨l, hl, (encodeInteger_eq_error.mp hcode).1⟩

/-- An instruction whose first integer is encoded does not offend. -/
theorem offence?_of_encodes {i' : Inst} (h : i.firstInteger? = some l)
    (hi : encodeInteger l i = .ok i') : i.offence? = none := by
  unfold offence?
  rw [h]
  dsimp only
  rw [hi]

/-- An instruction without integers does not offend. -/
theorem offence?_of_no_integer (h : i.firstInteger? = none) : i.offence? = none := by
  unfold offence?
  rw [h]

/-- Among floats only there is no integer. -/
theorem firstInteger?_eq_none (h : ∀ l, .literal l ∈ i.args → l.kind = .float) :
    i.firstInteger? = none := by
  rw [firstInteger?, List.find?_eq_none]
  intro l hl
  simp [h l (mem_literalsOf.mp hl)]

/-- The first integer stands behind operands that are not integers. -/
theorem firstInteger?_of_split {left right : List Value}
    (hargs : i.args = left ++ .literal l :: right)
    (hleft : ∀ m, .literal m ∈ left → m.kind = .float) (hk : l.kind = .int) :
    i.firstInteger? = some l := by
  have hsplit : literalsOf i.args = literalsOf left ++ l :: literalsOf right := by
    rw [hargs, literalsOf, List.filterMap_append]
    rfl
  have hnone : (literalsOf left).find? (·.kind = .int) = none := by
    rw [List.find?_eq_none]
    intro m hm
    simp [hleft m (mem_literalsOf.mp hm)]
  rw [firstInteger?, hsplit, List.find?_append, hnone, Option.none_or,
    List.find?_cons_of_pos (by simpa using hk)]

/-- What `j` still has of the instruction `i` when `n` operands have been lowered: up to the first
integer the opcode and the operands ahead, afterwards an opcode that takes integers in place. -/
inductive Scanned (i j : Inst) (n : Nat) : Prop where
  | before (hfloats : ∀ l, .literal l ∈ i.args.take n → l.kind = .float) (hop : j.op = i.op)
      (hahead : j.args.drop n = i.args.drop n)
  | after (hfine : i.offence? = none) (himm : Opcode.isImmediate j.op = true)

theorem Scanned.start (i : Inst) : i.Scanned i 0 := .before (by simp) rfl rfl

/-- An operand that is no integer is passed, whether or not it is replaced. -/
theorem Scanned.pass {j' : Inst} {v : Value} (h : i.Scanned j n) (ha : j.args[n]? = some v)
    (hv : ∀ l, v = .literal l → l.kind = .float) (hop : j'.op = j.op)
    (hahead : j'.args.drop (n + 1) = j.args.drop (n + 1)) : i.Scanned j' (n + 1) := by
  cases h with
  | after hfine himm => exact .after hfine (by rw [hop]; exact himm)
  | before hfloats hop' hahead' =>
      have hi : i.args[n]? = some v := by
        rw [← ha, ← List.head?_drop, ← List.head?_drop, hahead']
      refine .before (fun l hl => ?_) (hop.trans hop') ?_
      · rw [List.take_add_one, hi, List.mem_append] at hl
        rcases hl with hl | hl
        · exact hfloats l hl
        · exact hv l (by simpa [eq_comm] using hl)
      · rw [hahead, ← List.drop_drop, hahead', List.drop_drop]

/-- An integer is the one that decides, or it comes after that one and is encoded. -/
theorem Scanned.integer (h : i.Scanned j n) (ha : j.args[n]? = some (.literal l))
    (hk : l.kind = .int) : (∀ e, encodeInteger l j = .error e → i.offence? = some e) ∧
      ∀ j', encodeInteger l j = .ok j' → i.Scanned j' (n + 1) := by
  cases h with
  | after hfine himm =>
      have hsame := encodeInteger_of_isImmediate l himm
      refine ⟨fun e he => ?_, fun j' hj' => ?_⟩
      · rw [hsame] at he
        exact absurd he (by simp)
      · exact .after hfine (isImmediate_of_encodeInteger hj')
  | before hfloats hop hahead =>
      have hi : i.args[n]? = some (.literal l) := by
        rw [← ha, ← List.head?_drop, ← List.head?_drop, hahead]
      obtain ⟨hlt, hget⟩ := List.getElem?_eq_some_iff.mp hi
      have hsplit : i.args = i.args.take n ++ .literal l :: i.args.drop (n + 1) := by
        rw [← hget, List.getElem_cons_drop, List.take_append_drop]
      have hfirst := firstInteger?_of_split hsplit hfloats hk
      refine ⟨fun e he => ?_, fun j' hj' => ?_⟩
      · exact offence?_eq_some_iff.mpr ⟨l, hfirst, (encodeInteger_congr hop).mp he⟩
      · refine .after ?_ (isImmediate_of_encodeInteger hj')
        cases hcode : encodeInteger l i with
        | ok i' => exact offence?_of_encodes hfirst hcode
        | error e =>
            rw [(encodeInteger_congr hop).mpr hcode] at hj'
            exact absurd hj' (by simp)

/-- An instruction whose operands have all been lowered is supported. -/
theorem Scanned.offence?_eq_none (h : i.Scanned j n) (hn : j.args.length ≤ n) :
    i.offence? = none := by
  cases h with
  | after hfine _ => exact hfine
  | before hfloats _ hahead =>
      have hend : i.args.drop n = [] := by
        rw [← hahead]
        exact List.drop_eq_nil_of_le hn
      refine offence?_of_no_integer (firstInteger?_eq_none fun l hl => hfloats l ?_)
      rwa [List.take_of_length_le (List.drop_eq_nil_iff.mp hend)]

end Inst

end Straightline
