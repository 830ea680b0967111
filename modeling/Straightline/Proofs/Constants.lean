import Straightline.Proofs.Keys

/-!
# The names of constants

A lifted literal is read from a constant whose name spells the literal. These names are identifiers
(`Source.isName_constantName`), begin with one of two marks (`Literal.isConstant_constantName`), and
tell canonical literals apart (`Literal.constantName_inj`): whatever values literals have, some
environment gives every constant the value of its literal (`Literal.exists_constants`).
-/

set_option autoImplicit false

namespace Straightline

/-- Whether a name is one that constants have. -/
def isConstant (name : String) : Bool :=
  ['C', '_', 'f', '_'].isPrefixOf name.toList || ['C', '_', 'i', '_'].isPrefixOf name.toList

namespace Binary32

/-- The canonical pattern is canonical. -/
theorem canonical_canonical (bits : UInt32) : canonical (canonical bits) = canonical bits := by
  unfold canonical
  split
  · rfl
  · rfl

/-- Sign and magnitude make up a pattern. -/
theorem toNat_eq (bits : UInt32) :
    bits.toNat = magnitude bits + if isNegative bits then 2 ^ 31 else 0 := by
  have hlt := bits.toNat_lt
  have hneg : isNegative bits = decide (2 ^ 31 ≤ bits.toNat) := by
    unfold isNegative
    rw [decide_eq_decide, UInt32.le_iff_toNat_le]
    rfl
  rw [magnitude_eq, hneg]
  by_cases h : 2 ^ 31 ≤ bits.toNat
  · rw [if_pos (decide_eq_true h)]
    omega
  · rw [if_neg (by simpa using h)]
    omega

/-- A pattern is its sign and its magnitude. -/
theorem withSign_magnitude (bits : UInt32) :
    withSign (isNegative bits) (magnitude bits) = bits := by
  have htotal : (if isNegative bits = true then magnitude bits + 0x80000000 else magnitude bits) =
      bits.toNat := by
    rw [toNat_eq bits]
    split
    · rfl
    · rfl
  rw [withSign, htotal, UInt32.ofNat_toNat]

end Binary32

namespace Literal

open Numeral

/-- A literal whose bits stand for themselves: what is not a number has the one canonical pattern.
-/
def Canonical (l : Literal) : Prop := l.kind = .float → Binary32.canonical l.bits = l.bits

/-- A literal made of float bits is canonical. -/
theorem canonical_ofFloatBits (bits : UInt32) : (ofFloatBits bits).Canonical := fun _ =>
  Binary32.canonical_canonical bits

/-! ## The characters of a literal's text -/

/-- Everything that the text of a literal is made of. -/
def textChars : List Char :=
  ['0', '1', '2', '3', '4', '5', '6', '7', '8', '9', '.', 'e', '+', '-', 'I', 'n', 'f', 'N', 'a']

theorem mem_textChars_of_isDigit {c : Char} (h : isDigit c = true) : c ∈ textChars := by
  have hbounds := toNat_of_isDigit h
  have hall : ∀ n, n ≤ 57 → 48 ≤ n → Char.ofNat n ∈ textChars := by decide
  have := hall c.toNat hbounds.2 hbounds.1
  rwa [Char.ofNat_toNat] at this

theorem mem_textChars_of_isNumeralChar {c : Char} (h : isNumeralChar c = true) :
    c ∈ textChars := by
  have hcases : isDigit c = true ∨ c ∈ ['.', 'e', '+', '-'] := by simpa [isNumeralChar] using h
  rcases hcases with hd | hm
  · exact mem_textChars_of_isDigit hd
  · have hall : ∀ c ∈ ['.', 'e', '+', '-'], c ∈ textChars := forall_mem_of_all (by decide)
    exact hall c hm

/-- The three ways to write a float. -/
theorem floatText_cases (bits : UInt32) :
    (Binary32.isNaN bits = true ∧ Decimal.floatText bits = "NaN") ∨
      (Binary32.magnitude bits = Binary32.infinity ∧
        Decimal.floatText bits = if Binary32.isNegative bits then "-Inf" else "+Inf") ∨
      ∃ cs, Decimal.Spells cs (Decimal.ofMagnitude (Binary32.magnitude bits)) ∧
        Binary32.magnitude bits < Binary32.infinity ∧ (Decimal.floatText bits).toList =
          if Binary32.isNegative bits then '-' :: cs else cs := by
  rcases Nat.lt_trichotomy (Binary32.magnitude bits) Binary32.infinity with hlt | heq | hgt
  · obtain ⟨cs, hspells, htext⟩ := Decimal.exists_spells_floatText hlt
    exact .inr (.inr ⟨cs, hspells, hlt, htext⟩)
  · refine .inr (.inl ⟨heq, ?_⟩)
    unfold Decimal.floatText
    dsimp only
    rw [heq, if_neg (Nat.lt_irrefl _), if_pos rfl]
    cases Binary32.isNegative bits with
    | true => decide
    | false => decide
  · refine .inl ⟨decide_eq_true hgt, ?_⟩
    unfold Decimal.floatText
    dsimp only
    rw [if_pos hgt]
    decide

/-- The text of a literal is made of few characters. -/
theorem mem_textChars (l : Literal) : ∀ c ∈ l.text.toList, c ∈ textChars := by
  obtain ⟨kind, bits⟩ := l
  cases kind with
  | int =>
      intro c hc
      have htext : (Literal.mk .int bits).text = Int.repr (Literal.mk .int bits).toInt := rfl
      rw [htext] at hc
      rcases isDigit_or_eq_minus_of_mem_repr hc with hd | rfl
      · exact mem_textChars_of_isDigit hd
      · decide
  | float =>
      have htext : (Literal.mk .float bits).text = Decimal.floatText bits := rfl
      rw [htext]
      rcases floatText_cases bits with ⟨-, h⟩ | ⟨-, h⟩ | ⟨cs, hspells, -, h⟩
      · rw [h]
        exact forall_mem_of_all (by decide)
      · rw [h]
        split
        · exact forall_mem_of_all (by decide)
        · exact forall_mem_of_all (by decide)
      · rw [h]
        intro c hc
        have hchars : ∀ c ∈ cs, c ∈ textChars := fun c hc =>
          mem_textChars_of_isNumeralChar (hspells.chars c hc)
        split at hc
        · rcases List.mem_cons.mp hc with rfl | hc
          · decide
          · exact hchars c hc
        · exact hchars c hc

/-! ## Names -/

/-- A constant is named for the kind and the text of its literal. -/
theorem toList_constantName (l : Literal) : l.constantName.toList =
    'C' :: '_' :: (match l.kind with | .int => 'i' | .float => 'f') :: '_' ::
      l.text.toList.map mangleChar := by
  have hmangled : l.mangled.toList = l.text.toList.map mangleChar := String.toList_ofList
  rw [← hmangled]
  obtain ⟨kind, bits⟩ := l
  cases kind with
  | int => exact String.toList_append
  | float => exact String.toList_append

/-- The name of a constant is recognised as one. -/
theorem isConstant_constantName (l : Literal) : isConstant l.constantName = true := by
  unfold isConstant
  rw [toList_constantName]
  cases l.kind with
  | int => simp
  | float => simp

/-- Undoes the replacement of characters. -/
def unmangleChar (c : Char) : Char :=
  if c = '_' then '.' else if c = 'm' then '-' else if c = 'p' then '+' else c

/-- No two characters of literals are replaced by the same one. -/
theorem text_eq_of_mangled_eq {l m : Literal}
    (h : l.text.toList.map mangleChar = m.text.toList.map mangleChar) : l.text = m.text := by
  have hundo : ∀ k : Literal, (k.text.toList.map mangleChar).map unmangleChar = k.text.toList := by
    intro k
    have hall : ∀ c ∈ textChars, unmangleChar (mangleChar c) = c :=
      forall_mem_of_all (by decide)
    rw [List.map_map]
    exact (List.map_congr_left fun c hc => hall c (k.mem_textChars c hc)).trans (List.map_id' _)
  rw [← String.toList_inj, ← hundo l, ← hundo m, h]

/-- Literals of one kind with the same integer are the same. -/
theorem toInt_inj {l m : Literal} (hk : l.kind = m.kind) (h : l.toInt = m.toInt) : l = m := by
  obtain ⟨kl, bl⟩ := l
  obtain ⟨km, bm⟩ := m
  have hbits : bl = bm := UInt32.toBitVec_inj.mp (BitVec.eq_of_toInt_eq h)
  rw [Literal.mk.injEq]
  exact ⟨hk, hbits⟩

/-! ## Floats can be read off their texts -/

/-- The pattern that a text was written for, special values and signs included. -/
def readFloat (cs : List Char) : Option UInt32 :=
  if cs = ['N', 'a', 'N'] then some Binary32.quietNaN
  else if cs = ['+', 'I', 'n', 'f'] then some (Binary32.withSign false Binary32.infinity)
  else if cs = ['-', 'I', 'n', 'f'] then some (Binary32.withSign true Binary32.infinity)
  else if cs.head? = some '-' then
    (readBinary32 cs.tail).map fun bits => Binary32.withSign true bits.toNat
  else readBinary32 cs

/-- The text of a canonical float reads as its bits. -/
theorem readFloat_floatText {bits : UInt32} (h : Binary32.canonical bits = bits) :
    readFloat (Decimal.floatText bits).toList = some bits := by
  rcases floatText_cases bits with ⟨hnan, htext⟩ | ⟨hinf, htext⟩ | ⟨cs, hspells, hfin, htext⟩
  · have hbits : bits = Binary32.quietNaN := by
      rw [← h, Binary32.canonical, if_pos hnan]
    rw [htext, hbits]
    decide
  · have hbits := Binary32.withSign_magnitude bits
    rw [hinf] at hbits
    rw [htext]
    cases hsign : Binary32.isNegative bits with
    | true =>
        rw [hsign] at hbits
        rw [if_pos rfl, ← hbits]
        decide
    | false =>
        rw [hsign] at hbits
        rw [if_neg (by simp), ← hbits]
        decide
  · -- the number after the sign begins with a digit, so it is none of the special texts
    have hmag : (UInt32.ofNat (Binary32.magnitude bits)).toNat = Binary32.magnitude bits := by
      apply UInt32.toNat_ofNat_of_lt'
      have : Binary32.infinity < UInt32.size := by decide
      omega
    have hread : readBinary32 cs = some (UInt32.ofNat (Binary32.magnitude bits)) := by
      apply Decimal.Spells.readBinary32
      · rw [hmag]
        exact hspells
      · rw [hmag]
        exact hfin
    obtain ⟨c, rest, rfl, hdigit⟩ := hspells.head
    have hne : ∀ d, isDigit d = false → c ≠ d := by
      rintro d hd rfl
      rw [hdigit] at hd
      exact absurd hd (by simp)
    have hbits := Binary32.withSign_magnitude bits
    rw [htext]
    unfold readFloat
    cases hsign : Binary32.isNegative bits with
    | true =>
        rw [hsign] at hbits
        have hI := hne 'I' (by decide)
        rw [if_pos rfl, if_neg (by simp), if_neg (by simp), if_neg (by simp [hI]), if_pos (by simp),
          List.tail_cons, hread, Option.map_some, hmag, hbits]
    | false =>
        rw [hsign] at hbits
        have hN := hne 'N' (by decide)
        have hplus := hne '+' (by decide)
        have hminus := hne '-' (by decide)
        have hsame : (if false = true then '-' :: c :: rest else c :: rest) = c :: rest := rfl
        rw [hsame, if_neg (by simp [hN]), if_neg (by simp [hplus]), if_neg (by simp [hminus]),
          if_neg (by simp [hminus]), hread]
        exact congrArg some hbits

/-- The text tells the canonical literals of one kind apart. -/
theorem text_inj {l m : Literal} (hk : l.kind = m.kind) (hl : l.Canonical) (hm : m.Canonical)
    (h : l.text = m.text) : l = m := by
  obtain ⟨kind, bl⟩ := l
  obtain ⟨km, bm⟩ := m
  obtain rfl : kind = km := hk
  cases kind with
  | int => exact toInt_inj rfl (repr_inj h)
  | float =>
      have hread := readFloat_floatText (hl rfl)
      have hread' := readFloat_floatText (hm rfl)
      have htext : Decimal.floatText bl = Decimal.floatText bm := h
      rw [htext, hread', Option.some.injEq] at hread
      dsimp only at hread
      rw [hread]

/-- Canonical literals have constants of their own. -/
theorem constantName_inj {l m : Literal} (hl : l.Canonical) (hm : m.Canonical)
    (h : l.constantName = m.constantName) : l = m := by
  have hlist := congrArg String.toList h
  rw [toList_constantName, toList_constantName] at hlist
  simp only [List.cons.injEq, true_and] at hlist
  obtain ⟨hkind, htext⟩ := hlist
  refine text_inj ?_ hl hm (text_eq_of_mangled_eq htext)
  cases hkl : l.kind <;> cases hkm : m.kind <;> simp_all

/-- Whatever the values of literals are, some environment holds them in the constants. -/
theorem exists_constants {V : Type*} (value : Literal → V) :
    ∃ names : String → V, ∀ l : Literal, l.Canonical → names l.constantName = value l := by
  classical
  refine ⟨fun n => if h : ∃ l : Literal, l.Canonical ∧ l.constantName = n then value h.choose
    else value floatOne, fun l hl => ?_⟩
  have hex : ∃ m : Literal, m.Canonical ∧ m.constantName = l.constantName := ⟨l, hl, rfl⟩
  dsimp only
  rw [dif_pos hex]
  have hchoice := hex.choose_spec
  rw [constantName_inj hchoice.1 hl hchoice.2]

end Literal

namespace Source

/-- A name that a mangled literal is put after stays a name. -/
theorem isName_append_mangled {s : String} (hs : IsName s) (l : Literal) :
    IsName (s ++ l.mangled) := by
  refine hs.append fun c hc => ?_
  have hall : ∀ c ∈ Literal.textChars, IsIdentChar (Literal.mangleChar c) :=
    forall_mem_of_all (by decide)
  unfold Literal.mangled at hc
  rw [String.toList_ofList] at hc
  obtain ⟨d, hd, rfl⟩ := List.mem_map.mp hc
  exact hall d (l.mem_textChars d hd)

/-- The name of a constant is a name of the source. -/
theorem isName_constantName (l : Literal) : IsName l.constantName := by
  obtain ⟨kind, bits⟩ := l
  cases kind with
  | int => exact isName_append_mangled (isName_of_isIdent (by decide)) _
  | float => exact isName_append_mangled (isName_of_isIdent (by decide)) _

end Source

end Straightline
