import Straightline.Proofs.Tokens

/-!
# Keys tell computations apart

The key of an instruction spells its opcode and its operands with blanks in between. A text without
blanks that begins neither like a reference nor like a literal is a word; identifiers are words
(`isWord_of_isName`). Where opcode and names are words, cutting the key at its blanks gives back its
parts, and each part can be read in one way only: equal keys mean equal opcodes and equal operands
(`Inst.Legible.eq_of_key_eq`). References and literals are arbitrary
(`keys_tell_computations_apart`).
-/

set_option autoImplicit false

namespace Straightline

open Numeral

/-! ## Numbers in keys -/

theorem digitsValue_append (digits : List Char) (c : Char) :
    digitsValue 16 (digits ++ [c]) = digitsValue 16 digits * 16 + (digitValue? c).getD 0 := by
  unfold digitsValue
  rw [List.foldl_append]
  rfl

theorem digitValue?_digitChar {d : Nat} (h : d < 16) : digitValue? d.digitChar = some d := by
  have hall : ∀ d, d < 16 → digitValue? d.digitChar = some d := by decide
  exact hall d h

theorem digitsValue_toDigits (n : Nat) : digitsValue 16 (Nat.toDigits 16 n) = n := by
  induction n using Nat.strongRecOn with
  | ind n ih =>
      rcases Nat.lt_or_ge n 16 with hlt | hge
      · rw [Nat.toDigits_of_lt_base hlt]
        unfold digitsValue
        rw [List.foldl_cons, List.foldl_nil, digitValue?_digitChar hlt, Nat.zero_mul, Nat.zero_add]
        rfl
      · rw [Nat.toDigits_of_base_le (by decide) hge, digitsValue_append, ih (n / 16) (by omega),
          digitValue?_digitChar (Nat.mod_lt n (by decide))]
        exact Nat.div_add_mod' n 16

theorem digitsValue_zeros (k : Nat) (digits : List Char) :
    digitsValue 16 (List.replicate k '0' ++ digits) = digitsValue 16 digits := by
  induction k with
  | zero => rfl
  | succ k ih =>
      have hzero : (digitValue? '0').getD 0 = 0 := by decide
      rw [List.replicate_succ, List.cons_append, digitsValue, List.foldl_cons, hzero]
      exact ih

/-- A number in hexadecimal can be read off its digits, leading zeros or not. -/
theorem digitsValue_hex (width n : Nat) : digitsValue 16 (Text.hex width n).toList = n := by
  unfold Text.hex
  rw [String.toList_ofList, digitsValue_zeros, digitsValue_toDigits]

/-- The digits of a number are characters of digits. -/
theorem exists_digitChar_of_mem_toDigits {n : Nat} {c : Char} (h : c ∈ Nat.toDigits 16 n) :
    ∃ d, d < 16 ∧ c = d.digitChar := by
  induction n using Nat.strongRecOn with
  | ind n ih =>
      rcases Nat.lt_or_ge n 16 with hlt | hge
      · rw [Nat.toDigits_of_lt_base hlt, List.mem_singleton] at h
        exact ⟨n, hlt, h⟩
      · rw [Nat.toDigits_of_base_le (by decide) hge, List.mem_append, List.mem_singleton] at h
        rcases h with h | h
        · exact ih (n / 16) (by omega) h
        · exact ⟨n % 16, Nat.mod_lt n (by decide), h⟩

/-- There is no blank among hexadecimal digits. -/
theorem blank_not_mem_hex (width n : Nat) : ' ' ∉ (Text.hex width n).toList := by
  have hchar : ∀ d, d < 16 → ' ' ≠ d.digitChar := by decide
  unfold Text.hex
  rw [String.toList_ofList, List.mem_append, not_or]
  constructor
  · intro h
    exact absurd (List.eq_of_mem_replicate h) (by decide)
  · intro h
    obtain ⟨d, hd, hc⟩ := exists_digitChar_of_mem_toDigits h
    exact hchar d hd hc

/-! ## Operands -/

/-- A text without blanks that is taken neither for a reference nor for a literal. -/
structure IsWord (s : String) : Prop where
  blank : ' ' ∉ s.toList
  ref : s.toList.head? ≠ some '%'
  literal : s.toList.head? ≠ some '$'

/-- A name of the source is a word. -/
theorem isWord_of_isName {s : String} (h : Source.IsName s) : IsWord s := by
  obtain ⟨bytes, hident, rfl⟩ := h
  have hbyte : ∀ b : UInt8, Source.isIdentByte b = true →
      Char.ofNat b.toNat ∉ [' ', '%', '$'] :=
    Source.forall_byte (by decide +kernel)
  have hbytes : ∀ b ∈ bytes, Source.isIdentByte b = true := by
    cases bytes with
    | nil => simp
    | cons b rest =>
        simp only [Source.isIdent, Bool.and_eq_true, List.all_eq_true] at hident
        exact hident.2
  have hmem : ∀ c ∈ (Source.toText bytes).toList, c ∉ [' ', '%', '$'] := by
    intro c hc
    unfold Source.toText Source.toChars at hc
    rw [String.toList_ofList] at hc
    obtain ⟨b, hb, rfl⟩ := List.mem_map.mp hc
    exact hbyte b (hbytes b hb)
  refine ⟨fun hc => ?_, fun hc => ?_, fun hc => ?_⟩
  · exact hmem _ hc (by simp)
  · exact hmem _ (List.mem_of_head? hc) (by simp)
  · exact hmem _ (List.mem_of_head? hc) (by simp)

/-- An operand that its key stands for. -/
inductive Value.Spelled : Value → Prop where
  | literal (l : Literal) : Spelled (.literal l)
  | ref (id : InstId) : Spelled (.ref id)
  | name {s : String} (h : IsWord s) : Spelled (.name s)

/-- The key of a literal: a mark, its kind, and its bits. -/
theorem toList_key_literal (l : Literal) : (Value.key (.literal l)).toList =
    '$' :: (match l.kind with | .int => 'i' | .float => 'f') ::
      (Text.hex 8 l.bits.toNat).toList := by
  obtain ⟨kind, bits⟩ := l
  cases kind with
  | int => exact String.toList_append
  | float => exact String.toList_append

/-- The key of a reference: a mark and its number. -/
theorem toList_key_ref (id : InstId) : (Value.key (.ref id)).toList =
    '%' :: if id = InstId.absent then ['n', 'i', 'l'] else (Int.repr id.index).toList := by
  have htext : Value.key (.ref id) = id.text := rfl
  rw [htext, InstId.text]
  split
  · rfl
  · exact String.toList_append

/-- There is no blank in the key of an operand. -/
theorem Value.Spelled.blank_not_mem {v : Value} (h : v.Spelled) : ' ' ∉ v.key.toList := by
  cases h with
  | literal l =>
      rw [toList_key_literal, List.mem_cons, List.mem_cons, not_or, not_or]
      refine ⟨by decide, ?_, blank_not_mem_hex 8 _⟩
      cases l.kind with
      | int => decide
      | float => decide
  | ref id =>
      rw [toList_key_ref, List.mem_cons, not_or]
      refine ⟨by decide, ?_⟩
      split
      · decide
      · exact fun hm => (isDigit_or_eq_minus_of_mem_repr hm).elim (by decide) (by decide)
  | name hs => exact hs.blank

/-- The literal of a key. -/
theorem literal_eq_of_key_eq {l m : Literal}
    (h : Value.key (.literal l) = Value.key (.literal m)) : l = m := by
  have hlist := congrArg String.toList h
  rw [toList_key_literal, toList_key_literal, List.cons.injEq, List.cons.injEq] at hlist
  obtain ⟨-, hkind, hbits⟩ := hlist
  have hvalue := congrArg (digitsValue 16) hbits
  rw [digitsValue_hex, digitsValue_hex, UInt32.toNat_inj] at hvalue
  obtain ⟨kl, bl⟩ := l
  obtain ⟨km, bm⟩ := m
  cases kl <;> cases km <;> simp_all

/-- The instruction of a key. No number is written like the word for the absent instruction. -/
theorem ref_eq_of_key_eq {id id' : InstId}
    (h : Value.key (.ref id) = Value.key (.ref id')) : id = id' := by
  have hnumber : ∀ n, ['n', 'i', 'l'] ≠ (Int.repr n).toList := by
    intro n he
    have hn : 'n' ∈ (Int.repr n).toList := by
      rw [← he]
      decide
    exact (isDigit_or_eq_minus_of_mem_repr hn).elim (by decide) (by decide)
  have hlist := congrArg String.toList h
  rw [toList_key_ref, toList_key_ref, List.cons.injEq] at hlist
  obtain ⟨-, hlist⟩ := hlist
  by_cases hid : id = InstId.absent
  · by_cases hid' : id' = InstId.absent
    · rw [hid, hid']
    · rw [if_pos hid, if_neg hid'] at hlist
      exact absurd hlist (hnumber _)
  · by_cases hid' : id' = InstId.absent
    · rw [if_neg hid, if_pos hid'] at hlist
      exact absurd hlist.symm (hnumber _)
    · rw [if_neg hid, if_neg hid', String.toList_inj] at hlist
      exact congrArg InstId.mk (repr_inj hlist)

/-- Operands with equal keys are equal. -/
theorem Value.Spelled.eq_of_key_eq {v w : Value} (hv : v.Spelled) (hw : w.Spelled)
    (h : v.key = w.key) : v = w := by
  have hlist := congrArg String.toList h
  cases hv with
  | literal l =>
      cases hw with
      | literal m => rw [literal_eq_of_key_eq h]
      | ref id =>
          rw [toList_key_literal, toList_key_ref] at hlist
          exact absurd (List.cons.inj hlist).1 (by decide)
      | name hs =>
          rw [toList_key_literal] at hlist
          exact absurd (congrArg List.head? hlist).symm hs.literal
  | ref id =>
      cases hw with
      | literal m =>
          rw [toList_key_literal, toList_key_ref] at hlist
          exact absurd (List.cons.inj hlist).1 (by decide)
      | ref id' => rw [ref_eq_of_key_eq h]
      | name hs =>
          rw [toList_key_ref] at hlist
          exact absurd (congrArg List.head? hlist).symm hs.ref
  | name hs =>
      cases hw with
      | literal m =>
          rw [toList_key_literal] at hlist
          exact absurd (congrArg List.head? hlist) hs.literal
      | ref id =>
          rw [toList_key_ref] at hlist
          exact absurd (congrArg List.head? hlist) hs.ref
      | name hs' => exact congrArg Value.name h

/-- Lists of operands with equal keys are equal. -/
theorem eq_of_map_key_eq {xs ys : List Value} (hxs : ∀ v ∈ xs, v.Spelled)
    (hys : ∀ v ∈ ys, v.Spelled) (h : xs.map Value.key = ys.map Value.key) : xs = ys := by
  induction xs generalizing ys with
  | nil =>
      cases ys with
      | nil => rfl
      | cons y ys => simp at h
  | cons x xs ih =>
      cases ys with
      | nil => simp at h
      | cons y ys =>
          rw [List.map_cons, List.map_cons, List.cons.injEq] at h
          rw [(hxs x (by simp)).eq_of_key_eq (hys y (by simp)) h.1,
            ih (fun v hv => hxs v (by simp [hv])) (fun v hv => hys v (by simp [hv])) h.2]

/-! ## Instructions -/

/-- The key of an instruction: its opcode and the keys of its operands, with blanks in between. -/
theorem Inst.toList_key (i : Inst) : i.key.toList =
    '(' :: ([' '].intercalate (i.op.toList :: i.args.map fun v => v.key.toList) ++ [')']) := by
  unfold Inst.key
  rw [String.toList_append, String.toList_append, String.toList_intercalate, List.map_cons,
    List.map_map]
  rfl

/-- An instruction that its key tells apart from others. -/
def Inst.Legible (i : Inst) : Prop := IsWord i.op ∧ ∀ v ∈ i.args, v.Spelled

/-- Cutting a key at its blanks gives back the parts. -/
theorem Inst.Legible.splitOn_key {i : Inst} (h : i.Legible) :
    ([' '].intercalate (i.op.toList :: i.args.map fun v => v.key.toList)).splitOn ' ' =
      i.op.toList :: i.args.map fun v => v.key.toList := by
  refine List.splitOn_intercalate ' ' (fun part hpart => ?_) (by simp)
  rcases List.mem_cons.mp hpart with rfl | hpart
  · exact h.1.blank
  · obtain ⟨v, hv, rfl⟩ := List.mem_map.mp hpart
    exact (h.2 v hv).blank_not_mem

/-- Instructions with equal keys have equal opcodes and operands. -/
theorem Inst.Legible.eq_of_key_eq {i j : Inst} (hi : i.Legible) (hj : j.Legible)
    (h : i.key = j.key) : i.op = j.op ∧ i.args = j.args := by
  have hlist := congrArg String.toList h
  rw [Inst.toList_key, Inst.toList_key, List.cons.injEq] at hlist
  have hparts := congrArg (List.splitOn ' ') (List.append_cancel_right hlist.2)
  rw [hi.splitOn_key, hj.splitOn_key, List.cons.injEq] at hparts
  refine ⟨String.toList_inj.mp hparts.1, eq_of_map_key_eq hi.2 hj.2 ?_⟩
  have hkeys : (i.args.map Value.key).map String.toList =
      (j.args.map Value.key).map String.toList := by
    rw [List.map_map, List.map_map]
    exact hparts.2
  exact (List.map_inj_right fun _ _ => String.toList_inj.mp).mp hkeys

open Source

/-- An instruction of identifiers has a key that can be read. -/
theorem legible_of_isIdent {i : Inst}
    (h : ∀ s ∈ i.op :: namesOf i.args, isIdent (ofText s) = true) : i.Legible := by
  have hword : ∀ s ∈ i.op :: namesOf i.args, IsWord s := fun s hs =>
    isWord_of_isName (isName_of_isIdent (h s hs))
  refine ⟨hword i.op (by simp), fun v hv => ?_⟩
  cases v with
  | literal l => exact .literal l
  | ref id => exact .ref id
  | name s => exact .name (hword s (List.mem_cons_of_mem i.op (mem_namesOf.mpr hv)))

/-- Where opcodes and names are identifiers, two instructions have the same key exactly if they have
the same opcode and the same operands. References may be to anything, the absent instruction
included. -/
theorem keys_tell_computations_apart {i j : Inst}
    (hi : ∀ s ∈ i.op :: namesOf i.args, isIdent (ofText s) = true)
    (hj : ∀ s ∈ j.op :: namesOf j.args, isIdent (ofText s) = true) :
    i.key = j.key ↔ i.op = j.op ∧ i.args = j.args := by
  constructor
  · intro hkey
    exact (legible_of_isIdent hi).eq_of_key_eq (legible_of_isIdent hj) hkey
  · rintro ⟨hop, hargs⟩
    rw [Inst.key, Inst.key, hop, hargs]

/-- A name like the word for the absent instruction, a number that no instruction has, and two
literals with the same bits. -/
theorem keys_tell_literal_kinds_apart :
    let named : Value := .name "nil"
    let i : Inst := ⟨"x", "foo", [.ref .absent, named, .ref ⟨-12⟩, .literal ⟨.int, 15⟩], []⟩
    let j : Inst := ⟨"x", "foo", [.ref .absent, named, .ref ⟨-12⟩, .literal ⟨.float, 15⟩], []⟩
    let k : Inst := ⟨"T_0", "foo", [.ref .absent, named, .ref ⟨-12⟩, .literal ⟨.int, 15⟩], [⟨3⟩]⟩
    (∀ s ∈ i.op :: namesOf i.args, isIdent (ofText s) = true) ∧
      (∀ s ∈ j.op :: namesOf j.args, isIdent (ofText s) = true) ∧
      (∀ s ∈ k.op :: namesOf k.args, isIdent (ofText s) = true) ∧
      i.key = "(foo %nil nil %-12 $i0000000f)" ∧ j.key = "(foo %nil nil %-12 $f0000000f)" ∧
      i.key ≠ j.key ∧ i.key = k.key := by
  intro named i j k
  have hi : ∀ s ∈ i.op :: namesOf i.args, isIdent (ofText s) = true := by decide
  have hj : ∀ s ∈ j.op :: namesOf j.args, isIdent (ofText s) = true := by decide
  have hk : ∀ s ∈ k.op :: namesOf k.args, isIdent (ofText s) = true := by decide
  have hdiffer : ¬ (i.op = j.op ∧ i.args = j.args) := by decide
  exact ⟨hi, hj, hk, by decide, by decide, mt (keys_tell_computations_apart hi hj).mp hdiffer,
    (keys_tell_computations_apart hi hk).mpr ⟨rfl, rfl⟩⟩

/-- A name with a blank is spelled like two names. -/
example :
    let i : Inst := { dst := "x", op := "foo", args := [.name "a b"] }
    let j : Inst := { dst := "x", op := "foo", args := [.name "a", .name "b"] }
    i.key = j.key ∧ i.args ≠ j.args := by
  decide

end Straightline
