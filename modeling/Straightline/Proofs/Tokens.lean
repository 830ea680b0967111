import Straightline.Proofs.Reading
import Straightline.Proofs.Rendering
import Straightline.Proofs.Spelling

/-!
# Tokens

A token is what stands between the separators of a line: an identifier or a number. The bytes of a
token are ASCII and neither blanks nor separators (`Source.tokenByte_ne`), so trimming leaves a
token alone, and a text of ASCII characters is its bytes. Every literal that was read is written as
a token that reads as the same literal (`Source.Written.ofText`).
-/

set_option autoImplicit false

namespace Straightline

namespace Source

/-! ## The bytes of a text -/

/-- The bytes of a text. -/
def ofText (s : String) : Bytes := s.toUTF8.data.toList

theorem ofText_append (s t : String) : ofText (s ++ t) = ofText s ++ ofText t := by
  unfold ofText String.toUTF8
  rw [String.toByteArray_append, ByteArray.toList_data_append]

/-- The bytes of a text are those of its characters. -/
theorem ofText_eq_flatMap (s : String) : ofText s = s.toList.flatMap String.utf8EncodeChar := by
  unfold ofText String.toUTF8
  rw [← String.utf8Encode_toList, List.utf8Encode, List.toList_data_toByteArray]

/-- An ASCII character is one byte. -/
theorem utf8EncodeChar_of_ascii {c : Char} (h : c.toNat < 128) :
    String.utf8EncodeChar c = [UInt8.ofNat c.toNat] := by
  have hsize : c.utf8Size = 1 := by
    rw [Char.utf8Size_eq_one_iff, UInt32.le_iff_toNat_le]
    exact Nat.le_of_lt_succ h
  rw [String.utf8EncodeChar_eq_singleton hsize]
  congr 1

/-- A text of ASCII has one byte for each character. -/
theorem ofText_of_ascii {s : String} (h : ∀ c ∈ s.toList, c.toNat < 128) :
    ofText s = s.toList.map fun c => UInt8.ofNat c.toNat := by
  rw [ofText_eq_flatMap, List.map_eq_flatMap]
  exact List.flatMap_congr fun c hc => utf8EncodeChar_of_ascii (h c hc)

/-- A text of ASCII characters is its bytes. -/
theorem toChars_ofText {s : String} (h : ∀ c ∈ s.toList, c.toNat < 128) :
    toChars (ofText s) = s.toList := by
  have hback : ∀ c ∈ s.toList, Char.ofNat (UInt8.ofNat c.toNat).toNat = c := by
    intro c hc
    have hc := h c hc
    rw [UInt8.toNat_ofNat_of_lt' (by simp [UInt8.size]; omega), Char.ofNat_toNat]
  rw [ofText_of_ascii h, toChars, List.map_map]
  exact (List.map_congr_left hback).trans (List.map_id' _)

theorem toNat_ofNat_of_ascii {n : Nat} (h : n < 128) : (Char.ofNat n).toNat = n := by
  have hall : ∀ n, n < 128 → (Char.ofNat n).toNat = n := by decide
  exact hall n h

/-- The text of ASCII bytes has these bytes. -/
theorem ofText_toText {bytes : Bytes} (h : ∀ b ∈ bytes, b.toNat < 128) :
    ofText (toText bytes) = bytes := by
  have hchars : (toText bytes).toList = toChars bytes := String.toList_ofList
  rw [ofText_of_ascii, hchars, toChars, List.map_map]
  · have hback : ∀ b ∈ bytes, UInt8.ofNat (Char.ofNat b.toNat).toNat = b := by
      intro b hb
      rw [toNat_ofNat_of_ascii (h b hb), UInt8.ofNat_toNat]
    exact (List.map_congr_left hback).trans (List.map_id' _)
  · intro c hc
    rw [hchars] at hc
    obtain ⟨b, hb, rfl⟩ := List.mem_map.mp hc
    rw [toNat_ofNat_of_ascii (h b hb)]
    exact h b hb

/-- A text is determined by its bytes. -/
theorem ofText_inj {s t : String} (h : ofText s = ofText t) : s = t :=
  String.toByteArray_inj.mp (ByteArray.ext (Array.toList_inj.mp h))

/-! ## Token bytes -/

/-- What a token is made of. -/
def isTokenByte (b : UInt8) : Bool :=
  isIdentByte b || b = '.'.toUInt8 || b = '+'.toUInt8 || b = '-'.toUInt8

/-- The bytes that take a line apart. -/
def separators : Bytes :=
  ['='.toUInt8, '('.toUInt8, ')'.toUInt8, ','.toUInt8, '\n'.toUInt8, '\r'.toUInt8]

theorem forall_byte {P : UInt8 → Prop} (h : ∀ n : Fin 256, P (UInt8.ofNat n)) (b : UInt8) :
    P b := by
  have := h ⟨b.toNat, b.toNat_lt⟩
  rwa [UInt8.ofNat_toNat] at this

/-- A token byte is ASCII, and neither a blank nor a separator. -/
theorem tokenByte_ne (b : UInt8) : isTokenByte b = true →
    b.toNat < 128 ∧ Text.isAsciiBlank b = false ∧ b ∉ separators :=
  forall_byte (P := fun b => isTokenByte b = true →
    b.toNat < 128 ∧ Text.isAsciiBlank b = false ∧ b ∉ separators) (by decide +kernel) b

/-- The characters of numerals are token bytes. -/
theorem isTokenByte_of_isNumeralChar {c : Char} (h : Numeral.isNumeralChar c = true) :
    c.toNat < 128 ∧ isTokenByte (UInt8.ofNat c.toNat) = true := by
  have hcases : Numeral.isDigit c = true ∨ c ∈ ['.', 'e', '+', '-'] := by
    simpa [Numeral.isNumeralChar] using h
  rcases hcases with hd | hm
  · have hbounds := Numeral.toNat_of_isDigit hd
    have hall : ∀ n, n ≤ 57 → 48 ≤ n → n < 128 ∧ isTokenByte (UInt8.ofNat n) = true := by decide
    exact hall _ hbounds.2 hbounds.1
  · have hall : ∀ c ∈ ['.', 'e', '+', '-'], c.toNat < 128 ∧
        isTokenByte (UInt8.ofNat c.toNat) = true := forall_mem_of_all (by decide)
    exact hall c hm

/-- A non-empty run of token bytes. -/
structure Token (t : Bytes) : Prop where
  nonempty : t ≠ []
  bytes : ∀ b ∈ t, isTokenByte b = true

/-- A token holds no separator. -/
theorem Token.not_mem {t : Bytes} (h : Token t) {b : UInt8} (hb : b ∈ separators) : b ∉ t :=
  fun hm => (tokenByte_ne b (h.bytes b hm)).2.2 hb

theorem token_of_isIdent {t : Bytes} (h : isIdent t = true) : Token t := by
  cases t with
  | nil => simp [isIdent] at h
  | cons b rest =>
      refine ⟨by simp, fun x hx => ?_⟩
      simp only [isIdent, Bool.and_eq_true, List.all_eq_true] at h
      simp [isTokenByte, h.2 x hx]

/-- A name is written as a token that is an identifier. -/
theorem IsName.ofText {s : String} (h : IsName s) :
    isIdent (ofText s) = true ∧ toText (ofText s) = s := by
  obtain ⟨bytes, hident, rfl⟩ := h
  have htoken := token_of_isIdent hident
  rw [ofText_toText fun b hb => (tokenByte_ne b (htoken.bytes b hb)).1]
  exact ⟨hident, rfl⟩

/-- A text whose bytes are an identifier. -/
theorem isName_of_isIdent {s : String} (h : isIdent (ofText s) = true) : IsName s := by
  have htoken := token_of_isIdent h
  exact ⟨ofText s, h, ofText_inj (ofText_toText fun b hb => (tokenByte_ne b (htoken.bytes b hb)).1)⟩

/-- A character that identifiers may hold. -/
def IsIdentChar (c : Char) : Prop := c.toNat < 128 ∧ isIdentByte (UInt8.ofNat c.toNat) = true

instance (c : Char) : Decidable (IsIdentChar c) := inferInstanceAs (Decidable (_ ∧ _))

theorem toText_append (a b : Bytes) : toText (a ++ b) = toText a ++ toText b := by
  unfold toText toChars
  rw [List.map_append, String.ofList_append]

/-- An identifier may be continued. -/
theorem IsName.append {s t : String} (hs : IsName s) (ht : ∀ c ∈ t.toList, IsIdentChar c) :
    IsName (s ++ t) := by
  obtain ⟨bytes, hident, rfl⟩ := hs
  have hascii : ∀ c ∈ t.toList, c.toNat < 128 := fun c hc => (ht c hc).1
  have hrest : ∀ b ∈ Source.ofText t, isIdentByte b = true := by
    rw [ofText_of_ascii hascii]
    intro b hb
    obtain ⟨c, hc, rfl⟩ := List.mem_map.mp hb
    exact (ht c hc).2
  have htext : toText (Source.ofText t) = t := by
    unfold toText
    rw [toChars_ofText hascii, String.ofList_toList]
  refine ⟨bytes ++ Source.ofText t, ?_, by rw [toText_append, htext]⟩
  cases bytes with
  | nil => exact absurd hident (by simp [isIdent])
  | cons b rest =>
      simp only [isIdent, List.cons_append, Bool.and_eq_true, List.all_eq_true] at hident ⊢
      refine ⟨hident.1, fun x hx => ?_⟩
      rw [← List.cons_append] at hx
      rcases List.mem_append.mp hx with hx | hx
      · exact hident.2 x hx
      · exact hrest x hx

/-! ## Literals -/

theorem lt_of_readInt32 {cs : List Char} {n : Nat} (h : Numeral.readInt32 cs = some n) :
    n < 2 ^ 31 := by
  unfold Numeral.readInt32 at h
  dsimp only at h
  split at h
  · simp at h
  · split at h
    · rename_i hlt
      rw [Option.some.injEq] at h
      exact h ▸ hlt
    · simp at h

theorem lt_of_readBinary32 {cs : List Char} {bits : UInt32}
    (h : Numeral.readBinary32 cs = some bits) : bits.toNat < Binary32.infinity := by
  unfold Numeral.readBinary32 at h
  split at h
  · simp at h
  · rename_i r hr
    dsimp only at h
    split at h
    · rename_i hlt
      rw [Option.some.injEq] at h
      rw [← h]
      generalize Binary32.roundRatio r.ratio.1 r.ratio.2 = mag at hlt ⊢
      exact Nat.lt_of_le_of_lt (by simp [UInt32.toNat_ofNat']; exact Nat.mod_le _ _) hlt
    · simp at h

/-- The literals of program text: integers below 2³¹, and finite floats without a sign. -/
inductive Written : Literal → Prop where
  | int {n : Nat} (h : n < 2 ^ 31) : Written (.ofInt n)
  | float {bits : UInt32} (h : bits.toNat < Binary32.infinity) : Written (.ofFloatBits bits)

/-- What is read as a literal is one of program text. -/
theorem written_of_parse {token : Bytes} {l : Literal} (h : parseLiteral token = .ok l) :
    Written l := by
  unfold parseLiteral at h
  split at h
  · rename_i n hn
    rw [Except.ok.injEq] at h
    exact h ▸ .int (lt_of_readInt32 hn)
  · split at h
    · rename_i bits hbits
      rw [Except.ok.injEq] at h
      exact h ▸ .float (lt_of_readBinary32 hbits)
    · simp at h

theorem toNat_bits_ofInt {n : Nat} (h : n < 2 ^ 32) : (Literal.ofInt n).bits.toNat = n := by
  unfold Literal.ofInt UInt32.ofInt
  rw [UInt32.toNat_ofNat']
  have hcast : ((n : Int) % 2 ^ 32).toNat = n := by omega
  rw [hcast]
  exact Nat.mod_eq_of_lt h

theorem toInt_ofInt {n : Nat} (h : n < 2 ^ 31) : (Literal.ofInt n).toInt = n := by
  have hbits := toNat_bits_ofInt (n := n) (by omega)
  have hsigned : (Literal.ofInt n).toInt = (Literal.ofInt n).bits.toBitVec.toInt := rfl
  have hnat : (Literal.ofInt n).bits.toBitVec.toNat = n := hbits
  rw [hsigned, BitVec.toInt_eq_toNat_cond, hnat, if_pos (by omega)]

theorem text_ofInt {n : Nat} (h : n < 2 ^ 31) :
    (Literal.ofInt n).text.toList = Nat.toDigits 10 n := by
  have htext : (Literal.ofInt n).text = Int.repr (Literal.ofInt n).toInt := rfl
  rw [htext, toInt_ofInt h]
  exact Nat.toList_repr

/-- A finite pattern without a sign is canonical. -/
theorem canonical_of_lt {bits : UInt32} (h : bits.toNat < Binary32.infinity) :
    Binary32.canonical bits = bits := by
  unfold Binary32.canonical Binary32.isNaN Binary32.magnitude
  have hle := Nat.mod_le bits.toNat (2 ^ 31)
  rw [if_neg]
  rw [decide_eq_true_eq, Nat.not_lt]
  exact Nat.le_trans hle (Nat.le_of_lt h)

/-- The texts of written literals are numerals that read back. -/
theorem Written.text {l : Literal} (h : Written l) :
    (∀ c ∈ l.text.toList, Numeral.isNumeralChar c = true) ∧
      (∃ c rest, l.text.toList = c :: rest ∧ Numeral.isDigit c = true) ∧
      ∀ token, toChars token = l.text.toList → parseLiteral token = .ok l := by
  cases h with
  | @int n hn =>
      have htext := text_ofInt hn
      have hdigits : ∀ c ∈ (Literal.ofInt n).text.toList, Numeral.isDigit c = true := by
        rw [htext]
        exact fun c hc => Numeral.isDigit_of_mem_toDigits hc
      refine ⟨fun c hc => Numeral.isNumeralChar_of_isDigit (hdigits c hc), ?_, fun token ht => ?_⟩
      · cases hcs : (Literal.ofInt n).text.toList with
        | nil => exact absurd (htext.symm.trans hcs) Nat.toDigits_ne_nil
        | cons c rest => exact ⟨c, rest, rfl, hdigits c (by simp [hcs])⟩
      · unfold parseLiteral
        rw [ht, htext, Numeral.readInt32_toDigits hn]
  | @float bits hb =>
      have hcanonical := canonical_of_lt hb
      have htext : (Literal.ofFloatBits bits).text = Decimal.floatText bits := by
        unfold Literal.ofFloatBits
        rw [hcanonical]
        rfl
      have hspells := Decimal.spells_floatText hb
      rw [← htext] at hspells
      refine ⟨hspells.chars, hspells.head, fun token ht => ?_⟩
      unfold parseLiteral
      rw [ht, hspells.readInt32]
      dsimp only
      rw [hspells.readBinary32 hb]

/-- A written literal is written as a token that begins with a digit and reads back. -/
theorem Written.ofText {l : Literal} (h : Written l) :
    Token (ofText l.text) ∧ (∃ b rest, ofText l.text = b :: rest ∧ isDigitByte b = true) ∧
      parseLiteral (ofText l.text) = .ok l := by
  obtain ⟨hchars, ⟨c, rest, hcs, hdigit⟩, hread⟩ := h.text
  have hascii : ∀ c ∈ l.text.toList, c.toNat < 128 := fun c hc =>
    (isTokenByte_of_isNumeralChar (hchars c hc)).1
  have hbytes := ofText_of_ascii hascii
  refine ⟨⟨?_, ?_⟩, ?_, hread _ (toChars_ofText hascii)⟩
  · rw [hbytes, hcs]
    simp
  · rw [hbytes]
    intro b hb
    obtain ⟨c, hc, rfl⟩ := List.mem_map.mp hb
    exact (isTokenByte_of_isNumeralChar (hchars c hc)).2
  · rw [hbytes, hcs]
    refine ⟨_, _, rfl, ?_⟩
    have hbounds := Numeral.toNat_of_isDigit hdigit
    have hall : ∀ n, n ≤ 57 → 48 ≤ n → isDigitByte (UInt8.ofNat n) = true := by decide
    exact hall _ hbounds.2 hbounds.1

/-! ## Operands -/

/-- An identifier is read as a name, or as what the temporary means. -/
theorem parseOperand_of_isIdent (temps : List (String × InstId)) {t : Bytes}
    (h : isIdent t = true) : parseOperand temps t =
      if !isTemp (toText t) then .ok (.name (toText t))
      else match temps.lookup (toText t) with
        | some id => .ok (.ref id)
        | none => .error (.undefined (toText t)) := by
  cases t with
  | nil => simp [isIdent] at h
  | cons b rest =>
      have hdigit : isDigitByte b = false := by
        simp only [isIdent, Bool.and_eq_true] at h
        simpa using h.1
      unfold parseOperand
      dsimp only
      rw [hdigit, h, if_neg (by simp)]
      exact if_neg (by simp)

/-- The token of an operand that can stand where the temporaries `temps` are defined reads as that
operand there, if references are written by the name that means them. -/
theorem Operand.ofText {temps : List (String × InstId)} {p : Program} {v : Value}
    (h : Operand temps v)
    (hnames : ∀ s id, temps.lookup s = some id → (p.inst id).dst = s) :
    Token (ofText (p.operandText v)) ∧ parseOperand temps (ofText (p.operandText v)) = .ok v := by
  cases h with
  | @literal token l hl =>
      obtain ⟨htoken, ⟨b, rest, hb, hdigit⟩, hread⟩ := (written_of_parse hl).ofText
      have htext : p.operandText (.literal l) = l.text := rfl
      rw [htext]
      refine ⟨htoken, ?_⟩
      rw [hb] at hread ⊢
      simp only [parseOperand, hdigit, if_true, hread]
      rfl
  | @name s hs ht =>
      obtain ⟨hident, hback⟩ := hs.ofText
      have htext : p.operandText (.name s) = s := rfl
      rw [htext]
      exact ⟨token_of_isIdent hident, by rw [parseOperand_of_isIdent temps hident, hback, ht]; rfl⟩
  | @ref s id hs ht hl =>
      obtain ⟨hident, hback⟩ := hs.ofText
      have htext : p.operandText (.ref id) = s := hnames s id hl
      rw [htext]
      refine ⟨token_of_isIdent hident, ?_⟩
      rw [parseOperand_of_isIdent temps hident, hback, ht, hl]
      rfl

end Source

end Straightline
