import Mathlib.Data.List.Basic
import Straightline.Proofs.Blanks
import Straightline.Proofs.Numerals

/-!
# The grammar of program texts

A line of a program has the form

    destination = opcode ( operand , … )

with white space, or none, between any two of its parts (`Source.Shape`). Destinations and opcodes
are identifiers. An operand is an integer, a floating-point number, a name, or a temporary that an
earlier line defines; it then means the last such line (`Source.Means`). What a line reads as
therefore depends on the lines before it, and on nothing else (`Source.Reads`).

The reader is not built on this grammar. It splits lines, trims what it gets, and counts. The main
result is that it accepts the lines of the grammar and no others, that the program has one
instruction for each line, in the order of the lines, and that the error for any other text gives
the number of the first line that breaks the grammar (`Source.load_follows_grammar`).
-/

set_option autoImplicit false

namespace Straightline.Source

open Text (Spaces)

/-! ## The grammar -/

/-- A decimal number that fits 32 bits with a sign. -/
structure IsInt32 (token : Bytes) (n : Nat) : Prop where
  nonempty : token ≠ []
  digits : ∀ b ∈ token, isDigitByte b = true
  value : Nat.ofDigitChars 10 (toChars token) 0 = n
  bound : n < 2 ^ 31

/-- A floating-point number that does not round to more than the largest finite one. -/
def IsFloat32 (token : Bytes) (bits : UInt32) : Prop :=
  ∃ r, Numeral.Fractional.Writes (toChars token) r ∧
    Binary32.roundRatio r.ratio.1 r.ratio.2 < Binary32.infinity ∧
    bits = UInt32.ofNat (Binary32.roundRatio r.ratio.1 r.ratio.2)

/-- The line begins with this destination. -/
def Defines (line dst : Bytes) : Prop :=
  isIdent dst = true ∧ ∃ before after rest, Spaces before ∧ Spaces after ∧
    line = before ++ dst ++ after ++ '='.toUInt8 :: rest

/-- The last of the lines that define `dst` is the one with number `k`, counted from zero. -/
def LastDefinition (lines : List Bytes) (dst : Bytes) (k : Nat) : Prop :=
  (∃ line, lines[k]? = some line ∧ Defines line dst) ∧
    ∀ j line, k < j → lines[j]? = some line → ¬ Defines line dst

/-- What an operand means after the lines `before`. -/
inductive Means (before : List Bytes) : Bytes → Value → Prop where
  | int {token : Bytes} {n : Nat} (h : IsInt32 token n) : Means before token (.literal (.ofInt n))
  | float {token : Bytes} {bits : UInt32}
      (hdigit : ∃ b rest, token = b :: rest ∧ isDigitByte b = true) (hint : ∀ n, ¬ IsInt32 token n)
      (h : IsFloat32 token bits) : Means before token (.literal (.ofFloatBits bits))
  | name {token : Bytes} (hident : isIdent token = true) (htemp : isTemp (toText token) = false) :
      Means before token (.name (toText token))
  | ref {token : Bytes} {k : Nat} (hident : isIdent token = true)
      (htemp : isTemp (toText token) = true) (hlast : LastDefinition before token k) :
      Means before token (.ref ⟨k⟩)

/-- One operand or more, with commas between them. -/
inductive OperandList : List Bytes → Bytes → Prop where
  | one {before token after : Bytes} (hbefore : Spaces before) (hafter : Spaces after) :
      OperandList [token] (before ++ token ++ after)
  | more {before token after : Bytes} {tokens : List Bytes} {rest : Bytes} (hbefore : Spaces before)
      (hafter : Spaces after) (h : OperandList tokens rest) :
      OperandList (token :: tokens) (before ++ token ++ after ++ ','.toUInt8 :: rest)

/-- A line with its parts. -/
inductive Shape : Bytes → Bytes → Bytes → List Bytes → Prop where
  | mk {w₁ w₂ w₃ w₄ w₅ dst op list : Bytes} {tokens : List Bytes} (h₁ : Spaces w₁) (h₂ : Spaces w₂)
      (h₃ : Spaces w₃) (h₄ : Spaces w₄) (h₅ : Spaces w₅) (hdst : isIdent dst = true)
      (hop : isIdent op = true) (hlist : OperandList tokens list) :
      Shape (w₁ ++ dst ++ w₂ ++ '='.toUInt8 ::
        (w₃ ++ op ++ w₄ ++ '('.toUInt8 :: (list ++ ')'.toUInt8 :: w₅))) dst op tokens

/-- After the lines `before`, the line reads as the instruction. -/
def Reads (before : List Bytes) (line : Bytes) (i : Inst) : Prop :=
  ∃ dst op tokens args, Shape line dst op tokens ∧ List.Forall₂ (Means before) tokens args ∧
    i = { dst := toText dst, op := toText op, args }

/-- Every line reads as an instruction after the lines before it. -/
def Grammatical (lines : List Bytes) : Prop :=
  ∀ k line, lines[k]? = some line → ∃ i, Reads (lines.take k) line i

/-! ## Operands -/

theorem isDigit_ofNat (b : UInt8) : Numeral.isDigit (Char.ofNat b.toNat) = isDigitByte b := by
  have hall : ∀ b : UInt8, Numeral.isDigit (Char.ofNat b.toNat) = isDigitByte b :=
    forall_byte (by decide +kernel)
  exact hall b

/-- What is read as an integer is a decimal number that fits 32 bits. -/
theorem readInt32_iff {token : Bytes} {n : Nat} :
    Numeral.readInt32 (toChars token) = some n ↔ IsInt32 token n := by
  have hdigits : (∀ c ∈ toChars token, Numeral.isDigit c = true) ↔
      ∀ b ∈ token, isDigitByte b = true := by
    simp [toChars, isDigit_ofNat]
  rw [Numeral.readInt32_eq_some_iff, hdigits]
  constructor
  · rintro ⟨hne, hd, hv, hb⟩
    exact ⟨fun h => hne (by simp [toChars, h]), hd, hv, hb⟩
  · rintro ⟨hne, hd, hv, hb⟩
    exact ⟨fun h => hne (by simpa [toChars] using h), hd, hv, hb⟩

/-- What is read as a float is a floating-point number that is not too large. -/
theorem readBinary32_iff {token : Bytes} {bits : UInt32} :
    Numeral.readBinary32 (toChars token) = some bits ↔ IsFloat32 token bits := by
  unfold Numeral.readBinary32 IsFloat32
  constructor
  · intro h
    split at h
    · cases h
    · next r hr =>
        dsimp only at h
        split at h
        · next hlt =>
            exact ⟨r, Numeral.Fractional.read_eq_some_iff.mp hr, hlt, (Option.some.inj h).symm⟩
        · cases h
  · rintro ⟨r, hw, hlt, rfl⟩
    rw [Numeral.Fractional.read_eq_some_iff.mpr hw]
    exact if_pos hlt

/-- A literal is an integer if it can be one, and else a float. -/
theorem parseLiteral_iff {token : Bytes} {l : Literal} :
    parseLiteral token = .ok l ↔ (∃ n, IsInt32 token n ∧ l = .ofInt n) ∨
      (∀ n, ¬ IsInt32 token n) ∧ ∃ bits, IsFloat32 token bits ∧ l = .ofFloatBits bits := by
  unfold parseLiteral
  cases hint : Numeral.readInt32 (toChars token) with
  | some n =>
      have hn := readInt32_iff.mp hint
      have hunique : ∀ m, IsInt32 token m → m = n := fun m hm => hm.value.symm.trans hn.value
      constructor
      · rintro ⟨⟩
        exact .inl ⟨n, hn, rfl⟩
      · rintro (⟨m, hm, rfl⟩ | ⟨hno, -⟩)
        · rw [hunique m hm]
        · exact absurd hn (hno n)
  | none =>
      have hno : ∀ n, ¬ IsInt32 token n := fun n hn => by simp [readInt32_iff.mpr hn] at hint
      cases hfloat : Numeral.readBinary32 (toChars token) with
      | some bits =>
          have hbits := readBinary32_iff.mp hfloat
          constructor
          · rintro ⟨⟩
            exact .inr ⟨hno, bits, hbits, rfl⟩
          · rintro (⟨n, hn, -⟩ | ⟨-, other, hother, rfl⟩)
            · exact absurd hn (hno n)
            · rw [readBinary32_iff.mpr hother] at hfloat
              cases hfloat
              rfl
      | none =>
          constructor
          · rintro ⟨⟩
          · rintro (⟨n, hn, -⟩ | ⟨-, other, hother, -⟩)
            · exact absurd hn (hno n)
            · rw [readBinary32_iff.mpr hother] at hfloat
              cases hfloat

/-- The temporaries of a store mean the last lines that define them. -/
def Resolves (temps : List (String × InstId)) (before : List Bytes) : Prop :=
  ∀ token id, isIdent token = true → isTemp (toText token) = true →
    (temps.lookup (toText token) = some id ↔ ∃ k : Nat, id = ⟨k⟩ ∧ LastDefinition before token k)

/-- No identifier begins with a digit. -/
theorem not_isIdent_of_digit {b : UInt8} {rest : Bytes} (hb : isDigitByte b = true) :
    isIdent (b :: rest) = false := by
  simp [isIdent, hb]

section Means

variable {before : List Bytes} {token : Bytes} {v : Value}

/-- An operand begins with a digit or is an identifier. -/
theorem Means.start (h : Means before token v) :
    (∃ b rest, token = b :: rest ∧ isDigitByte b = true) ∨ isIdent token = true := by
  cases h with
  | int hn =>
      obtain ⟨b, rest, rfl⟩ := List.exists_cons_of_ne_nil hn.nonempty
      exact .inl ⟨b, rest, rfl, hn.digits b (by simp)⟩
  | float hdigit => exact .inl hdigit
  | name hident => exact .inr hident
  | ref hident => exact .inr hident

/-- A token that begins with a digit means a literal. -/
theorem means_digit_iff {b : UInt8} {rest : Bytes} (hb : isDigitByte b = true) :
    Means before (b :: rest) v ↔ ∃ l, parseLiteral (b :: rest) = .ok l ∧ v = .literal l := by
  constructor
  · intro h
    cases h with
    | int hn => exact ⟨_, parseLiteral_iff.mpr (.inl ⟨_, hn, rfl⟩), rfl⟩
    | float _ hno hbits => exact ⟨_, parseLiteral_iff.mpr (.inr ⟨hno, _, hbits, rfl⟩), rfl⟩
    | name hident =>
        rw [not_isIdent_of_digit hb] at hident
        cases hident
    | ref hident =>
        rw [not_isIdent_of_digit hb] at hident
        cases hident
  · rintro ⟨l, hl, rfl⟩
    rcases parseLiteral_iff.mp hl with ⟨n, hn, rfl⟩ | ⟨hno, bits, hbits, rfl⟩
    · exact .int hn
    · exact .float ⟨b, rest, rfl, hb⟩ hno hbits

/-- An identifier means a name, or the last definition of a temporary. -/
theorem means_ident_iff (hident : isIdent token = true) :
    Means before token v ↔ isTemp (toText token) = false ∧ v = .name (toText token) ∨
      isTemp (toText token) = true ∧ ∃ k : Nat, v = .ref ⟨k⟩ ∧ LastDefinition before token k := by
  have hdigit : ¬ ∃ b rest, token = b :: rest ∧ isDigitByte b = true := by
    rintro ⟨b, rest, rfl, hb⟩
    rw [not_isIdent_of_digit hb] at hident
    cases hident
  constructor
  · intro h
    cases h with
    | int hn =>
        obtain ⟨b, rest, rfl⟩ := List.exists_cons_of_ne_nil hn.nonempty
        exact absurd ⟨b, rest, rfl, hn.digits b (by simp)⟩ hdigit
    | float hd => exact absurd hd hdigit
    | name _ htemp => exact .inl ⟨htemp, rfl⟩
    | ref _ htemp hlast => exact .inr ⟨htemp, _, rfl, hlast⟩
  · rintro (⟨htemp, rfl⟩ | ⟨htemp, k, rfl, hlast⟩)
    · exact .name hident htemp
    · exact .ref hident htemp hlast

/-- The reader of operands gives the meaning of an operand, and fails where there is none. -/
theorem parseOperand_iff {temps : List (String × InstId)} (hres : Resolves temps before) :
    parseOperand temps token = .ok v ↔ Means before token v := by
  by_cases hdigit : ∃ b rest, token = b :: rest ∧ isDigitByte b = true
  · obtain ⟨b, rest, rfl, hb⟩ := hdigit
    rw [means_digit_iff hb, parseOperand, if_pos hb]
    cases parseLiteral (b :: rest) with
    | error e => simp [Except.map]
    | ok l => simp [Except.map, eq_comm]
  by_cases hident : isIdent token = true
  · rw [means_ident_iff hident, parseOperand_of_isIdent temps hident]
    cases htemp : isTemp (toText token) with
    | false => simp [eq_comm]
    | true =>
        have hlookup := fun id => hres token id hident htemp
        cases hfound : temps.lookup (toText token) with
        | none =>
            have hno : ∀ k, ¬ LastDefinition before token k := fun k hk => by
              simpa [hfound] using (hlookup ⟨k⟩).mpr ⟨k, rfl, hk⟩
            simp [hno]
        | some id =>
            obtain ⟨k, rfl, hk⟩ := (hlookup id).mp hfound
            have hunique : ∀ j, LastDefinition before token j → j = k := fun j hj => by
              have h := (hlookup ⟨j⟩).mpr ⟨j, rfl, hj⟩
              rw [hfound] at h
              simpa [eq_comm] using h
            constructor
            · rintro ⟨⟩
              exact .inr ⟨rfl, k, rfl, hk⟩
            · rintro (⟨h, -⟩ | ⟨-, j, rfl, hj⟩)
              · cases h
              · rw [hunique j hj]
                rfl
  · have hno : ¬ Means before token v := fun h => h.start.elim hdigit hident
    have hfails : ∃ e, parseOperand temps token = .error e := by
      cases token with
      | nil => exact ⟨_, rfl⟩
      | cons b rest =>
          have hb : isDigitByte b = false := by
            by_contra h
            exact hdigit ⟨b, rest, rfl, by simpa using h⟩
          simp [parseOperand, hb, hident]
    obtain ⟨e, he⟩ := hfails
    simp [he, hno]

end Means

/-! ## Lines -/

/-- An operand is made of token bytes. -/
theorem Means.token {before : List Bytes} {token : Bytes} {v : Value} (h : Means before token v) :
    Token token := by
  have hdigit : ∀ b, isDigitByte b = true → isTokenByte b = true := by
    intro b hb
    simp [isTokenByte, isIdentByte, hb]
  have hpart : ∀ b : UInt8, Numeral.isNumeralPart (Char.ofNat b.toNat) = true →
      isTokenByte b = true := forall_byte (by decide +kernel)
  cases h with
  | int hn => exact ⟨hn.nonempty, fun b hb => hdigit b (hn.digits b hb)⟩
  | float hstart _ hbits =>
      obtain ⟨b, rest, rfl, -⟩ := hstart
      obtain ⟨r, hw, -⟩ := hbits
      refine ⟨by simp, fun x hx => hpart x (hw.parts _ ?_)⟩
      exact List.mem_map_of_mem hx
  | name hident => exact token_of_isIdent hident
  | ref hident => exact token_of_isIdent hident

/-- Trimming takes the white space from around a token. -/
theorem Token.trim_spaces {t : Bytes} (h : Token t) {before after : Bytes} (hbefore : Spaces before)
    (hafter : Spaces after) : Text.trim (before ++ t ++ after) = t := by
  obtain ⟨first, hfirst⟩ : ∃ b, t.head? = some b := ⟨_, List.head?_eq_some_head h.nonempty⟩
  obtain ⟨last, hlast⟩ : ∃ b, t.getLast? = some b := ⟨_, List.getLast?_eq_some_getLast h.nonempty⟩
  have hf := tokenByte_ne first (h.bytes first (List.mem_of_mem_head? hfirst))
  have hl := tokenByte_ne last (h.bytes last (List.mem_of_getLast? hlast))
  exact Text.trim_of_spaces hbefore hafter hfirst hlast ⟨hf.1, hf.2.1⟩ ⟨hl.1, hl.2.1⟩

/-- The separators of a line that are not white space themselves. -/
def marks : Bytes := ['='.toUInt8, '('.toUInt8, ')'.toUInt8, ','.toUInt8]

/-- White space holds no separator. -/
theorem not_mem_spaces {bytes : Bytes} (h : Spaces bytes) {b : UInt8} (hb : b ∈ marks) :
    b ∉ bytes := by
  have hall : ∀ b ∈ marks, b < 0x80 ∧ Text.isAsciiBlank b = false := forall_mem_of_all (by decide)
  exact h.not_mem (hall b hb).1 (hall b hb).2

/-- A token with white space around it holds no separator. -/
theorem not_mem_padded {before token after : Bytes} (hbefore : Spaces before) (htoken : Token token)
    (hafter : Spaces after) {b : UInt8} (hb : b ∈ marks) : b ∉ before ++ token ++ after := by
  have hsep : ∀ b ∈ marks, b ∈ separators := forall_mem_of_all (by decide)
  simp only [List.mem_append, not_or]
  exact ⟨⟨not_mem_spaces hbefore hb, htoken.not_mem (hsep b hb)⟩, not_mem_spaces hafter hb⟩

/-- A list of operands holds no separators but commas. -/
theorem OperandList.not_mem {tokens : List Bytes} {list : Bytes} (h : OperandList tokens list)
    (htokens : ∀ t ∈ tokens, Token t) {b : UInt8} (hb : b ∈ marks) (hcomma : b ≠ ','.toUInt8) :
    b ∉ list := by
  induction h with
  | one hbefore hafter => exact not_mem_padded hbefore (htokens _ (by simp)) hafter hb
  | more hbefore hafter _ ih =>
      rw [List.mem_append, List.mem_cons, not_or, not_or]
      exact ⟨not_mem_padded hbefore (htokens _ (by simp)) hafter hb, hcomma,
        ih fun t ht => htokens t (by simp [ht])⟩

/-- Between the commas stand the operands, with white space around them. -/
theorem OperandList.splitOn {tokens : List Bytes} {list : Bytes} (h : OperandList tokens list)
    (htokens : ∀ t ∈ tokens, Token t) : (list.splitOn ','.toUInt8).map Text.trim = tokens := by
  have hcomma : ','.toUInt8 ∈ marks := by decide
  induction h with
  | one hbefore hafter =>
      have ht := htokens _ (List.mem_singleton_self _)
      rw [List.splitOn_eq_singleton (not_mem_padded hbefore ht hafter hcomma), List.map_singleton,
        ht.trim_spaces hbefore hafter]
  | @more before token after tokens rest hbefore hafter _ ih =>
      have ht := htokens token (by simp)
      rw [List.splitOn_append_cons_self_of_not_mem (not_mem_padded hbefore ht hafter hcomma),
        List.map_cons, ht.trim_spaces hbefore hafter, ih fun t ht => htokens t (by simp [ht])]

/-- What stands between commas is a list of operands. -/
theorem operandList_of_intercalate {parts : List Bytes} (h : parts ≠ []) :
    OperandList (parts.map Text.trim) ([','.toUInt8].intercalate parts) := by
  induction parts with
  | nil => exact absurd rfl h
  | cons part parts ih =>
      obtain ⟨before, after, hbefore, hafter, hpart⟩ := Text.exists_of_trim part
      cases parts with
      | nil =>
          have hone : OperandList [Text.trim part] (before ++ Text.trim part ++ after) :=
            .one hbefore hafter
          rw [← hpart] at hone
          simpa using hone
      | cons next parts =>
          have hmore : OperandList (Text.trim part :: (next :: parts).map Text.trim)
              (before ++ Text.trim part ++ after ++ ','.toUInt8 ::
                [','.toUInt8].intercalate (next :: parts)) := .more hbefore hafter (ih (by simp))
          rw [← hpart] at hmore
          simpa [List.intercalate_cons_cons] using hmore

/-- Where every element succeeds, the results are those of the elements, in order. -/
theorem mapM_eq_ok_iff {α β ε : Type} {f : α → Except ε β} {xs : List α} {ys : List β} :
    xs.mapM f = .ok ys ↔ List.Forall₂ (fun x y => f x = .ok y) xs ys := by
  induction xs generalizing ys with
  | nil =>
      rw [List.mapM_nil, List.forall₂_nil_left_iff]
      simp [pure, Except.pure, eq_comm]
  | cons x xs ih =>
      rw [List.mapM_cons, List.forall₂_cons_left_iff]
      cases hx : f x with
      | error e => simp [bind, Except.bind]
      | ok y =>
          cases hxs : xs.mapM f with
          | error e => simp [bind, Except.bind, ← ih, hxs]
          | ok ys' => simp [bind, Except.bind, pure, Except.pure, ← ih, hxs, eq_comm]

/-- A text that splits in two is the parts with the separator in between. -/
theorem eq_of_splitOn_pair {xs left right : Bytes} {sep : UInt8}
    (h : xs.splitOn sep = [left, right]) : xs = left ++ sep :: right := by
  have hjoin : [sep].intercalate (xs.splitOn sep) = xs := List.intercalate_splitOn sep
  rw [h, List.intercalate_cons_cons, List.intercalate_singleton] at hjoin
  simpa using hjoin.symm

/-- The operands end where the closing parenthesis stands, at the end of the text. -/
theorem eq_of_operandText? {text operands : Bytes} (h : operandText? text = some operands) :
    text = operands ++ [')'.toUInt8] := by
  unfold operandText? at h
  split at h
  · next hguard =>
      obtain ⟨front, rfl⟩ := List.getLast?_eq_some_iff.mp hguard.2
      obtain rfl := Option.some.inj h
      simp
  · cases h

/-- What means something is a token. -/
theorem tokens_of_means {before tokens : List Bytes} {args : List Value}
    (h : List.Forall₂ (Means before) tokens args) : ∀ t ∈ tokens, Token t := by
  induction h with
  | nil => simp
  | cons hmeans _ ih => simpa using And.intro hmeans.token ih

/-- What stands right of the `=` of a line, without the white space around it. -/
def callText (op after list : Bytes) : Bytes :=
  op ++ after ++ '('.toUInt8 :: (list ++ [')'.toUInt8])

/-- The operands of a list are found in front of the closing parenthesis. -/
theorem OperandList.operandText? {tokens : List Bytes} {list : Bytes} (h : OperandList tokens list)
    (htokens : ∀ t ∈ tokens, Token t) : operandText? (list ++ [')'.toUInt8]) = some list := by
  have hzero : list.count ')'.toUInt8 = 0 :=
    List.count_eq_zero.mpr (h.not_mem htokens (by decide) (by decide))
  unfold Source.operandText?
  rw [List.count_append, hzero, if_pos ⟨by decide, by simp⟩, List.dropLast_concat]

section Call

variable {op after list : Bytes} (hop : Token op)

include hop

/-- Trimming takes the white space from around a call. -/
theorem trim_callText {w w' : Bytes} (h : Spaces w) (h' : Spaces w') :
    Text.trim (w ++ callText op after list ++ w') = callText op after list := by
  obtain ⟨first, rest, rfl⟩ := List.exists_cons_of_ne_nil hop.nonempty
  have hfirst := tokenByte_ne first (hop.bytes first (by simp))
  have hlast : (callText (first :: rest) after list).getLast? = some ')'.toUInt8 := by
    rw [callText, ← List.cons_append, ← List.append_assoc, List.getLast?_concat]
  exact Text.trim_of_spaces h h' rfl hlast ⟨hfirst.1, hfirst.2.1⟩ (by decide)

variable {tokens : List Bytes} (hafter : Spaces after) (hlist : OperandList tokens list)
  (htokens : ∀ t ∈ tokens, Token t)

include hafter hlist htokens

/-- A call holds no `=`, and only one opening parenthesis. -/
theorem not_mem_callText {b : UInt8} (hb : b ∈ ['='.toUInt8, '('.toUInt8]) :
    b ∉ op ++ after ∧ b ∉ list ++ [')'.toUInt8] := by
  have hall : ∀ b ∈ ['='.toUInt8, '('.toUInt8], b ∈ marks ∧ b ≠ ','.toUInt8 ∧ b ≠ ')'.toUInt8 :=
    forall_mem_of_all (by decide)
  obtain ⟨hmark, hcomma, hclose⟩ := hall b hb
  refine ⟨by simpa using not_mem_padded Text.spaces_nil hop hafter hmark, ?_⟩
  rw [List.mem_append, List.mem_singleton, not_or]
  exact ⟨hlist.not_mem htokens hmark hcomma, hclose⟩

/-- A call splits at its one opening parenthesis. -/
theorem splitOn_callText :
    (callText op after list).splitOn '('.toUInt8 = [op ++ after, list ++ [')'.toUInt8]] := by
  obtain ⟨hcallee, hrest⟩ :=
    not_mem_callText hop hafter hlist htokens (b := '('.toUInt8) (by decide)
  rw [callText, List.splitOn_append_cons_self_of_not_mem hcallee, List.splitOn_eq_singleton hrest]

end Call

/-- How a line is taken apart if it is accepted. -/
theorem exists_parts_of_parse {temps : List (String × InstId)} {line : Bytes} {i : Inst}
    (h : parseStatement temps line = .ok i) :
    ∃ left right callee list operands args, line.splitOn '='.toUInt8 = [left, right] ∧
      (Text.trim right).splitOn '('.toUInt8 = [callee, list] ∧ operandText? list = some operands ∧
      isIdent (Text.trim left) = true ∧ isIdent (Text.trim callee) = true ∧
      parseOperands temps (operands.splitOn ','.toUInt8) = .ok args ∧
      i = { dst := toText (Text.trim left), op := toText (Text.trim callee), args } := by
  unfold parseStatement at h
  split at h
  case h_2 => cases h
  rename_i left right hline
  split at h
  case h_2 => cases h
  rename_i callee list hcall
  split at h
  · cases h
  rename_i operands hoperands
  dsimp only at h
  split at h
  · cases h
  rename_i hdst
  split at h
  · cases h
  rename_i hop
  split at h
  · cases h
  rename_i args hargs
  exact ⟨left, right, callee, list, operands, args, hline, hcall, hoperands, by simpa using hdst,
    by simpa using hop, hargs, (Except.ok.inj h).symm⟩

section Statement

variable {temps : List (String × InstId)} {before : List Bytes} (hres : Resolves temps before)
  {line : Bytes} {i : Inst}

include hres

/-- Operands are read exactly if each of them means something. -/
theorem parseOperands_iff {parts : List Bytes} {args : List Value} :
    parseOperands temps parts = .ok args ↔
      List.Forall₂ (Means before) (parts.map Text.trim) args := by
  rw [parseOperands, mapM_eq_ok_iff, List.forall₂_map_left_iff]
  simp only [parseOperand_iff hres]

/-- A line that is accepted has the form of the grammar. -/
theorem reads_of_parse (h : parseStatement temps line = .ok i) : Reads before line i := by
  obtain ⟨left, right, callee, list, operands, args, hline, hcall, hoperands, hdst, hop, hargs,
    rfl⟩ := exists_parts_of_parse h
  obtain ⟨w₁, w₂, h₁, h₂, hleft⟩ := Text.exists_of_trim left
  obtain ⟨w₃, w₅, h₃, h₅, hright⟩ := Text.exists_of_trim right
  obtain ⟨w₄, w₆, h₄, h₆, hcallee⟩ := Text.exists_of_trim callee
  have hlist : OperandList ((operands.splitOn ','.toUInt8).map Text.trim) operands := by
    have h := operandList_of_intercalate (List.splitOn_ne_nil ','.toUInt8 operands)
    rwa [List.intercalate_splitOn] at h
  have hbytes : line = w₁ ++ Text.trim left ++ w₂ ++ '='.toUInt8 ::
      (w₃ ++ w₄ ++ Text.trim callee ++ w₆ ++ '('.toUInt8 :: (operands ++ ')'.toUInt8 :: w₅)) := by
    rw [eq_of_splitOn_pair hline, ← hleft]
    congr 2
    rw [hright, eq_of_splitOn_pair hcall, eq_of_operandText? hoperands]
    conv_lhs => rw [hcallee]
    simp
  rw [hbytes]
  exact ⟨_, _, _, args, .mk h₁ h₂ (h₃.append h₄) h₆ h₅ hdst hop hlist,
    (parseOperands_iff hres).mp hargs, rfl⟩

/-- A line of the grammar is accepted. -/
theorem parse_of_reads (h : Reads before line i) : parseStatement temps line = .ok i := by
  obtain ⟨dst, op, tokens, args, hshape, hargs, rfl⟩ := h
  have htokens : ∀ t ∈ tokens, Token t := tokens_of_means hargs
  obtain ⟨h₁, h₂, h₃, h₄, h₅, hdst, hop, hlist⟩ := hshape
  rename_i w₁ w₂ w₃ w₄ w₅ list
  have htdst := token_of_isIdent hdst
  have htop := token_of_isIdent hop
  obtain ⟨hcallee, hrest⟩ := not_mem_callText htop h₄ hlist htokens (b := '='.toUInt8) (by decide)
  have hright : '='.toUInt8 ∉ w₃ ++ callText op w₄ list ++ w₅ := by
    rw [callText, List.mem_append, List.mem_append, List.mem_append, List.mem_cons]
    simp only [not_or]
    exact ⟨⟨not_mem_spaces h₃ (by decide), hcallee, by decide, hrest⟩,
      not_mem_spaces h₅ (by decide)⟩
  have hsplit : (w₁ ++ dst ++ w₂ ++ '='.toUInt8 ::
      (w₃ ++ op ++ w₄ ++ '('.toUInt8 :: (list ++ ')'.toUInt8 :: w₅))).splitOn '='.toUInt8 =
      [w₁ ++ dst ++ w₂, w₃ ++ callText op w₄ list ++ w₅] := by
    have hcall : w₃ ++ op ++ w₄ ++ '('.toUInt8 :: (list ++ ')'.toUInt8 :: w₅) =
        w₃ ++ callText op w₄ list ++ w₅ := by simp [callText]
    rw [List.splitOn_append_cons_self_of_not_mem (not_mem_padded h₁ htdst h₂ (by decide)), hcall,
      List.splitOn_eq_singleton hright]
  have htrim : Text.trim (op ++ w₄) = op := by
    simpa using htop.trim_spaces Text.spaces_nil h₄
  have hparse : parseOperands temps (list.splitOn ','.toUInt8) = .ok args := by
    rw [parseOperands_iff hres, hlist.splitOn htokens]
    exact hargs
  unfold parseStatement
  simp only [hsplit, trim_callText htop h₃ h₅, splitOn_callText htop h₄ hlist htokens,
    hlist.operandText? htokens, htdst.trim_spaces h₁ h₂, htrim, hdst, hop, hparse, Bool.not_true,
    Bool.false_eq_true, if_false]

/-- Lines are accepted as the grammar says. -/
theorem parseStatement_iff : parseStatement temps line = .ok i ↔ Reads before line i :=
  ⟨reads_of_parse hres, parse_of_reads hres⟩

end Statement

/-! ## Definitions of temporaries -/

/-- The destination of a line is what stands before its first `=`. -/
theorem Defines.trim_head {line dst : Bytes} (h : Defines line dst) :
    ((line.splitOn '='.toUInt8).head?).map Text.trim = some dst := by
  obtain ⟨hident, before, after, rest, hbefore, hafter, rfl⟩ := h
  have htoken := token_of_isIdent hident
  rw [List.splitOn_append_cons_self_of_not_mem (not_mem_padded hbefore htoken hafter (by decide)),
    List.head?_cons, Option.map_some, htoken.trim_spaces hbefore hafter]

/-- A line has one destination. -/
theorem Defines.unique {line dst dst' : Bytes} (h : Defines line dst) (h' : Defines line dst') :
    dst = dst' :=
  Option.some.inj (h.trim_head.symm.trans h'.trim_head)

/-- A line with its parts defines its destination. -/
theorem Shape.defines {line dst op : Bytes} {tokens : List Bytes} (h : Shape line dst op tokens) :
    Defines line dst := by
  obtain ⟨h₁, h₂, h₃, h₄, h₅, hdst, hop, hlist⟩ := h
  exact ⟨hdst, _, _, _, h₁, h₂, rfl⟩

/-- Identifiers with the same text are the same. -/
theorem eq_of_toText_eq {a b : Bytes} (ha : isIdent a = true) (hb : isIdent b = true)
    (h : toText a = toText b) : a = b := by
  have hascii : ∀ t, isIdent t = true → ofText (toText t) = t := fun t ht =>
    ofText_toText fun b hb => (tokenByte_ne b ((token_of_isIdent ht).bytes b hb)).1
  rw [← hascii a ha, ← hascii b hb, h]

/-- One more line becomes the last definition of its destination, and of nothing else. -/
theorem lastDefinition_append {lines : List Bytes} {line dst : Bytes} {k : Nat} :
    LastDefinition (lines ++ [line]) dst k ↔
      Defines line dst ∧ k = lines.length ∨ ¬ Defines line dst ∧ LastDefinition lines dst k := by
  have hnew : (lines ++ [line])[lines.length]? = some line := by simp
  have hold : ∀ {j : Nat}, j < lines.length → (lines ++ [line])[j]? = lines[j]? := fun h =>
    List.getElem?_append_left h
  constructor
  · rintro ⟨⟨l, hl, hdef⟩, hlast⟩
    rcases Nat.lt_trichotomy k lines.length with hlt | rfl | hgt
    · have hnot := hlast lines.length line hlt hnew
      refine .inr ⟨hnot, ⟨l, (hold hlt).symm.trans hl, hdef⟩, fun j l' hkj hl' => ?_⟩
      have hj : j < lines.length := (List.getElem?_eq_some_iff.mp hl').1
      exact hlast j l' hkj ((hold hj).trans hl')
    · obtain rfl : line = l := Option.some.inj (hnew.symm.trans hl)
      exact .inl ⟨hdef, rfl⟩
    · have hlen := (List.getElem?_eq_some_iff.mp hl).1
      rw [List.length_append, List.length_singleton] at hlen
      omega
  · rintro (⟨hdef, rfl⟩ | ⟨hnot, ⟨l, hl, hdef⟩, hlast⟩)
    · refine ⟨⟨line, hnew, hdef⟩, fun j l' hj hl' => ?_⟩
      have hlen := (List.getElem?_eq_some_iff.mp hl').1
      rw [List.length_append, List.length_singleton] at hlen
      omega
    · have hk : k < lines.length := (List.getElem?_eq_some_iff.mp hl).1
      refine ⟨⟨l, (hold hk).trans hl, hdef⟩, fun j l' hkj hl' => ?_⟩
      by_cases hj : j < lines.length
      · exact hlast j l' hkj ((hold hj).symm.trans hl')
      · have hlen := (List.getElem?_eq_some_iff.mp hl').1
        rw [List.length_append, List.length_singleton] at hlen
        obtain rfl : j = lines.length := by omega
        obtain rfl : line = l' := Option.some.inj (hnew.symm.trans hl')
        exact hnot

/-- Binding the destination of a line keeps the temporaries right. -/
theorem Resolves.add {temps : List (String × InstId)} {before : List Bytes} {line : Bytes}
    {i : Inst} (hres : Resolves temps before) (h : Reads before line i) :
    Resolves (if i.isTemp then (i.dst, ⟨before.length⟩) :: temps else temps)
      (before ++ [line]) := by
  obtain ⟨dst, op, tokens, args, hshape, -, rfl⟩ := h
  have hdst := hshape.defines
  intro token id hident htemp
  -- a line defines its destination and nothing else, and names tell identifiers apart
  by_cases heq : token = dst
  · subst heq
    have hlast : ∀ k, LastDefinition (before ++ [line]) token k ↔ k = before.length := fun k => by
      simp [lastDefinition_append, hdst]
    simp [Inst.isTemp, htemp, hlast, eq_comm]
  · have hnot : ¬ Defines line token := fun h => heq (h.unique hdst)
    have hlast : ∀ k, LastDefinition (before ++ [line]) token k ↔ LastDefinition before token k :=
      fun k => by simp [lastDefinition_append, hnot]
    have hname : toText token ≠ toText dst := fun h => heq (eq_of_toText_eq hident hdst.1 h)
    simp only [hlast, ← hres token id hident htemp]
    split
    · rw [List.lookup_cons, beq_false_of_ne hname]
    · rfl

/-! ## Programs -/

/-- The store holds one instruction for each of the lines, in their order, and each is what its line
reads as. -/
structure Transcribes (s : Store) (lines : List Bytes) : Prop where
  size : s.slots.size = lines.length
  order : s.program.order = (List.range lines.length).map fun k => ⟨k⟩
  inst : ∀ k line, lines[k]? = some line → Reads (lines.take k) line (s.instAt ⟨k⟩)

/-- What is known of a store in which the lines have been read. -/
structure HasRead (s : Store) (lines : List Bytes) : Prop where
  loaded : s.Loaded
  temps : Resolves s.temps lines
  holds : Transcribes s lines

theorem hasRead_nil : HasRead {} [] where
  loaded := .empty
  temps token id _ _ := by simp [LastDefinition]
  holds := ⟨rfl, rfl, by simp⟩

/-- Reading one more line. -/
theorem HasRead.add {s : Store} {lines : List Bytes} {line : Bytes} {i : Inst} (h : HasRead s lines)
    (hreads : Reads lines line i) : HasRead (s.add i) (lines ++ [line]) := by
  have hstatement := statement_of_parse ((parseStatement_iff h.temps).mpr hreads)
  have hfresh := h.loaded.fresh
  have hprogram : (s.add i).program = s.program.append i := (hfresh.add hstatement).holds.program_eq
  have hnext : s.program.nextId = ⟨lines.length⟩ := by
    rw [Program.nextId, ← h.holds.size]
    rfl
  refine ⟨h.loaded.add hstatement, ?_, ?_, ?_, fun k l hl => ?_⟩
  · have htemps := h.temps.add hreads
    rwa [← h.holds.size] at htemps
  · have hsize : (s.add i).slots.size = s.slots.size + 1 := congrArg Program.size hprogram
    rw [hsize, h.holds.size, List.length_append, List.length_singleton]
  · rw [hprogram, Program.order_append, h.holds.order, hnext, List.length_append,
      List.length_singleton, List.range_succ, List.map_append, List.map_singleton]
  · have hinst : (s.add i).instAt = (s.program.append i).inst := congrArg Program.inst hprogram
    rw [hinst]
    rcases Nat.lt_or_ge k lines.length with hk | hk
    · have hl' : lines[k]? = some l := (List.getElem?_append_left hk).symm.trans hl
      have hknown : s.program.Known ⟨k⟩ := by
        refine ⟨Int.natCast_nonneg k, ?_⟩
        have hlt : k < s.slots.size := by rw [h.holds.size]; exact hk
        exact Int.ofNat_lt.mpr hlt
      rw [Program.inst_append_of_known i hknown, List.take_append_of_le_length hk.le]
      exact h.holds.inst k l hl'
    · have hlen := (List.getElem?_eq_some_iff.mp hl).1
      rw [List.length_append, List.length_singleton] at hlen
      obtain rfl : k = lines.length := by omega
      obtain rfl : line = l := by simpa using hl
      rw [← hnext, Program.inst_append_new, List.take_left']
      · exact hreads
      · rfl

/-- The line with number `k`, counted from zero, is the first one that breaks the grammar. -/
def FirstBroken (lines : List Bytes) (k : Nat) (line : Bytes) : Prop :=
  lines[k]? = some line ∧ (∀ i, ¬ Reads (lines.take k) line i) ∧
    ∀ j < k, ∀ l, lines[j]? = some l → ∃ i, Reads (lines.take j) l i

/-- A line that cannot be parsed is refused with its number and its bytes. -/
theorem readLine_of_error {w : Workspace} {line : Bytes} {reason : Reason} (number : Nat)
    (h : parseStatement w.store.temps line = .error reason) :
    readLine number line w = .ok (.error ⟨number, line, reason⟩) w := by
  unfold readLine
  simp only [bind, EStateM.bind, run_get, h]
  rfl

/-- Reading goes through the lines until one breaks the grammar. The lines `done` have been read
already. -/
theorem readLines_cases (rest done : List Bytes) {w : Workspace} (h : HasRead w.store done)
    (hshort : ∀ line ∈ rest, line.length < lineLimit) :
    (∃ w', readLines (done.length + 1) rest w = .ok (.ok ()) w' ∧
      HasRead w'.store (done ++ rest.map dropReturn)) ∨
    ∃ k line reason w', FirstBroken (done ++ rest.map dropReturn) k line ∧
      readLines (done.length + 1) rest w = .ok (.error (.malformed ⟨k + 1, line, reason⟩)) w' := by
  induction rest generalizing done w with
  | nil => exact .inl ⟨w, rfl, by simpa using h⟩
  | cons raw rest ih =>
      have hlimit : ¬ lineLimit ≤ raw.length := Nat.not_le.mpr (hshort raw (by simp))
      rw [readLines, if_neg hlimit]
      -- the lines before this one are those of the grammar: they have been read
      cases hparse : parseStatement w.store.temps (dropReturn raw) with
      | error reason =>
          refine .inr ⟨done.length, dropReturn raw, reason, w, ⟨by simp, fun i hi => ?_, ?_⟩, ?_⟩
          · have hread : Reads done (dropReturn raw) i := by simpa using hi
            rw [(parseStatement_iff h.temps).mpr hread] at hparse
            cases hparse
          · intro j hj l hl
            rw [List.getElem?_append_left hj] at hl
            rw [List.take_append_of_le_length hj.le]
            exact ⟨_, h.holds.inst j l hl⟩
          · simp only [bind, EStateM.bind, readLine_of_error _ hparse]
            rfl
      | ok i =>
          obtain ⟨w₁, hread, hstore⟩ := readLine_of_parse h.loaded (done.length + 1) hparse
          have hnext : HasRead w₁.store (done ++ [dropReturn raw]) := by
            rw [hstore]
            exact h.add ((parseStatement_iff h.temps).mp hparse)
          have hall := ih (done ++ [dropReturn raw]) hnext fun l hl => hshort l (by simp [hl])
          simp only [bind, EStateM.bind, hread]
          simpa using hall

/-- Where a line breaks the grammar, the lines do not follow it. -/
theorem FirstBroken.not_grammatical {lines : List Bytes} {k : Nat} {line : Bytes}
    (h : FirstBroken lines k line) : ¬ Grammatical lines := by
  intro hall
  obtain ⟨i, hi⟩ := hall k line h.1
  exact h.2.1 i hi

/-- The reader follows the grammar. A text without overlong lines is accepted if all its lines are
lines of the grammar, and only then. The program has one instruction for each line, in order, and
each is what its line reads as after the lines before it. The error for any other text gives the
number of the first line that breaks the grammar. -/
theorem load_follows_grammar (source : Bytes) (w : Workspace)
    (hshort : ∀ line ∈ lines source, line.length < lineLimit) :
    (Grammatical ((lines source).map dropReturn) ↔ ∃ v, load source w = .ok (.ok ()) v) ∧
      (∀ v, load source w = .ok (.ok ()) v → Transcribes v.store ((lines source).map dropReturn)) ∧
      (¬ Grammatical ((lines source).map dropReturn) →
        ∃ k line reason v, FirstBroken ((lines source).map dropReturn) k line ∧
          load source w = .ok (.error (.malformed ⟨k + 1, line, reason⟩)) v) := by
  have hcases := readLines_cases (lines source) [] (w := { w with store := {} }) hasRead_nil hshort
  rw [List.nil_append, List.length_nil, Nat.zero_add] at hcases
  rcases hcases with ⟨v, hrun, hread⟩ | ⟨k, line, reason, v, hbroken, hrun⟩
  · have hload : load source w = .ok (.ok ()) v := by
      unfold load readProgram
      simp only [bind, EStateM.bind, run_get, run_modifyStore, hrun]
      rfl
    have hgrammatical : Grammatical ((lines source).map dropReturn) := fun k line hl =>
      ⟨_, hread.holds.inst k line hl⟩
    refine ⟨⟨fun _ => ⟨v, hload⟩, fun _ => hgrammatical⟩, fun v' hv' => ?_, fun h => ?_⟩
    · rw [hload] at hv'
      cases hv'
      exact hread.holds
    · exact absurd hgrammatical h
  · have hload : ∃ v, load source w = .ok (.error (.malformed ⟨k + 1, line, reason⟩)) v := by
      unfold load readProgram
      simp only [bind, EStateM.bind, run_get, run_modifyStore, hrun]
      exact ⟨_, rfl⟩
    obtain ⟨v, hload⟩ := hload
    have hfails : ∀ v', load source w ≠ .ok (.ok ()) v' := fun v' hv' => by
      rw [hload] at hv'
      cases hv'
    refine ⟨⟨fun h => absurd h hbroken.not_grammatical, ?_⟩,
      fun v' hv' => absurd hv' (hfails v'), fun _ => ⟨k, line, reason, v, hbroken, hload⟩⟩
    rintro ⟨v', hv'⟩
    exact absurd hv' (hfails v')

/-- The number of the line that a text was refused for. -/
def errorLine? : Except ReadError Unit → Option Nat
  | .error (.malformed e) => some e.line
  | _ => none

/-- White space of several kinds, a temporary that is defined twice, and a third line that uses one
that is not defined. -/
theorem load_of_undefined_follows_grammar :
    let source := ofText "\u2003T_a = add(x ,0x_1p-2)\r\nT_a =mul( T_a,007)\u00a0\nz = foo(T_b)\n"
    (∀ line ∈ lines source, line.length < lineLimit) ∧
      ∃ line reason v, FirstBroken ((lines source).map dropReturn) 2 line ∧
        load source {} = .ok (.error (.malformed ⟨3, line, reason⟩)) v := by
  intro source
  have hshort : ∀ line ∈ lines source, line.length < lineLimit :=
    forall_mem_of_all (by decide +kernel)
  obtain ⟨hiff, -, hbroken⟩ := load_follows_grammar source {} hshort
  have hfails : succeeds (load source) {} = false := by decide +kernel
  have hnot : ¬ Grammatical ((lines source).map dropReturn) := by
    intro h
    obtain ⟨v, hv⟩ := hiff.mp h
    simp [succeeds, hv] at hfails
  obtain ⟨k, line, reason, v, hfirst, hload⟩ := hbroken hnot
  have hnumber : (result? (load source) {}).bind errorLine? = some 3 := by decide +kernel
  have hline : (result? (load source) {}).bind errorLine? = some (k + 1) := by
    rw [result?, hload]
    rfl
  obtain rfl : k = 2 := Nat.succ.inj (Option.some.inj (hline.symm.trans hnumber))
  exact ⟨hshort, line, reason, v, hfirst, hload⟩

end Straightline.Source
