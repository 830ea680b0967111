import Mathlib.Data.List.TakeDrop
import Mathlib.Tactic.Linarith
import Mathlib.Tactic.Ring
import Straightline.Decimal.Notation
import Straightline.Numeral.Fractional
import Straightline.Numeral.Integer
import Straightline.Proofs.Rounding

/-!
# Numbers read back as they were written

A decimal is written positionally or in exponent notation; both are digits with a point, and reading
them gives back the ratio that the decimal stands for (`Decimal.spells_text`). Together with the
rounding interval this makes the text of a finite pattern read back as the pattern
(`Decimal.spells_floatText`, `Decimal.Spells.readBinary32`). No such text is taken for an integer.
-/

set_option autoImplicit false

namespace Straightline

/-- What holds of every element of a list, if it was checked for one after the other. -/
theorem forall_mem_of_all {α : Type} {P : α → Prop} [DecidablePred P] {xs : List α}
    (h : xs.all (fun x => decide (P x)) = true) : ∀ x ∈ xs, P x :=
  fun x hx => of_decide_eq_true (List.all_eq_true.mp h x hx)

namespace Numeral

/-! ## Digits -/

theorem digitValue?_of_isDigit {c : Char} (h : isDigit c = true) :
    digitValue? c = some (c.toNat - 48) := by
  rw [digitValue?, if_pos h]
  rfl

theorem toNat_of_isDigit {c : Char} (h : isDigit c = true) : 48 ≤ c.toNat ∧ c.toNat ≤ 57 := by
  have hrange : '0' ≤ c ∧ c ≤ '9' := by simpa [isDigit] using h
  exact hrange

/-- A digit stands for less than ten. -/
theorem isDigitIn_ten {c : Char} (h : isDigit c = true) : isDigitIn 10 c = true := by
  rw [isDigitIn, digitValue?_of_isDigit h]
  have hc := toNat_of_isDigit h
  exact decide_eq_true (by omega)

theorem digitsValue_eq {digits : List Char} (h : ∀ c ∈ digits, isDigit c = true) :
    digitsValue 10 digits = Nat.ofDigitChars 10 digits 0 := by
  have key : ∀ n, digits.foldl (fun n c => n * 10 + (digitValue? c).getD 0) n =
      Nat.ofDigitChars 10 digits n := by
    induction digits with
    | nil => exact fun n => rfl
    | cons c digits ih =>
        intro n
        rw [List.foldl_cons, Nat.ofDigitChars_cons, ih fun x hx => h x (by simp [hx]),
          digitValue?_of_isDigit (h c (by simp)), Nat.mul_comm]
        rfl
  exact key 0

theorem isDigit_of_mem_toDigits {n : Nat} {c : Char} (h : c ∈ Nat.toDigits 10 n) :
    isDigit c = true :=
  Nat.isDigit_of_mem_toDigits (by decide) (by decide) h

theorem isDigit_zero : isDigit '0' = true := by decide

/-- The first digit of a positive number is not zero. -/
theorem head?_toDigits_ne {n : Nat} (h : 0 < n) : (Nat.toDigits 10 n).head? ≠ some '0' := by
  induction n using Nat.strongRecOn with
  | ind n ih =>
      rcases Nat.lt_or_ge n 10 with hlt | hge
      · rw [Nat.toDigits_of_lt_base hlt]
        have hall : ∀ m, m < 10 → 0 < m → [m.digitChar].head? ≠ some '0' := by decide
        exact hall n hlt h
      · have hrest := ih (n / 10) (by omega) (by omega)
        rw [Nat.toDigits_of_base_le (by decide) hge]
        cases hcs : Nat.toDigits 10 (n / 10) with
        | nil => exact absurd hcs Nat.toDigits_ne_nil
        | cons c cs =>
            rw [hcs] at hrest
            exact hrest

/-! ## Integers -/

/-- An integer is written as a minus if it is negative, and its digits. -/
theorem toList_repr (n : Int) : (Int.repr n).toList =
    if n < 0 then '-' :: Nat.toDigits 10 n.natAbs else Nat.toDigits 10 n.natAbs := by
  cases n with
  | ofNat n =>
      rw [if_neg (by simp)]
      exact Nat.toList_repr
  | negSucc n =>
      have htext : Int.repr (.negSucc n) = "-" ++ Nat.repr (n + 1) := rfl
      rw [if_pos (Int.negSucc_lt_zero n), htext, String.toList_append, Nat.toList_repr]
      rfl

/-- An integer is written with digits and a sign. -/
theorem isDigit_or_eq_minus_of_mem_repr {n : Int} {c : Char} (h : c ∈ (Int.repr n).toList) :
    isDigit c = true ∨ c = '-' := by
  rw [toList_repr] at h
  split at h
  · exact (List.mem_cons.mp h).symm.imp_left isDigit_of_mem_toDigits
  · exact .inl (isDigit_of_mem_toDigits h)

/-- Different integers are written differently. -/
theorem repr_inj {m n : Int} (h : Int.repr m = Int.repr n) : m = n := by
  have hlist := congrArg String.toList h
  have hdigit : ∀ k, '-' ∉ Nat.toDigits 10 k := fun k hk =>
    absurd (isDigit_of_mem_toDigits hk) (by decide)
  have habs : ∀ {a b : Nat}, Nat.toDigits 10 a = Nat.toDigits 10 b → a = b := by
    intro a b hab
    have := congrArg (fun cs => Nat.ofDigitChars 10 cs 0) hab
    simpa only [Nat.ofDigitChars_ten_toDigits] using this
  rw [toList_repr, toList_repr] at hlist
  split at hlist
  · split at hlist
    · have := habs (List.cons.inj hlist).2
      omega
    · exact absurd (by rw [← hlist]; simp) (hdigit n.natAbs)
  · split at hlist
    · exact absurd (by rw [hlist]; simp) (hdigit m.natAbs)
    · have := habs hlist
      omega

/-- A number below 2³¹ reads back. -/
theorem readInt32_toDigits {n : Nat} (h : n < 2 ^ 31) : readInt32 (Nat.toDigits 10 n) = some n := by
  have hdigits : ∀ c ∈ Nat.toDigits 10 n, isDigit c = true := fun c hc => isDigit_of_mem_toDigits hc
  have hlen : (Nat.toDigits 10 n).length ≤ 10 :=
    (Nat.length_toDigits_le_iff (by decide) (by decide)).mpr (by omega)
  -- leading zeros are dropped, but only zero has one
  have hvalue : ∃ significant, (Nat.toDigits 10 n).dropWhile (· = '0') = significant ∧
      significant.length ≤ 10 ∧ digitsValue 10 significant = n := by
    rcases Nat.eq_zero_or_pos n with rfl | hpos
    · exact ⟨[], by simp [Nat.toDigits_zero], by simp, rfl⟩
    · refine ⟨Nat.toDigits 10 n, ?_, hlen, ?_⟩
      · have hhead := head?_toDigits_ne hpos
        cases hcs : Nat.toDigits 10 n with
        | nil => rfl
        | cons c cs =>
            rw [hcs] at hhead
            have hc : c ≠ '0' := by simpa using hhead
            rw [List.dropWhile_cons_of_neg (by simpa using hc)]
      · rw [digitsValue_eq hdigits, Nat.ofDigitChars_ten_toDigits]
  obtain ⟨significant, hdrop, hlen', hn⟩ := hvalue
  unfold readInt32
  dsimp only
  have hne : (Nat.toDigits 10 n).isEmpty = false := by
    cases hcs : Nat.toDigits 10 n with
    | nil => exact absurd hcs Nat.toDigits_ne_nil
    | cons c cs => rfl
  have hall : (Nat.toDigits 10 n).all isDigit = true := List.all_eq_true.mpr hdigits
  rw [hdrop, hne, hall, hn, if_neg (by simp [Nat.not_lt.mpr hlen'])]
  exact if_pos h

/-- What holds anything but digits is no integer. -/
theorem readInt32_of_not_isDigit {cs : List Char} {c : Char} (hc : c ∈ cs)
    (hd : isDigit c = false) : readInt32 cs = none := by
  have hall : cs.all isDigit = false := by
    rw [List.all_eq_false]
    exact ⟨c, hc, by simp [hd]⟩
  unfold readInt32
  simp [hall]

/-! ## Digits, a point, an exponent -/

theorem span_digits {digits rest : List Char} {p : Char → Bool} (hd : ∀ c ∈ digits, p c = true)
    (hr : ∀ c ∈ rest.head?, p c = false) : (digits ++ rest).span p = (digits, rest) := by
  rw [List.span_eq_takeWhile_dropWhile, List.takeWhile_append_of_pos hd,
    List.dropWhile_append_of_pos hd]
  cases rest with
  | nil => simp
  | cons c rest =>
      have hc := hr c (by simp)
      rw [List.takeWhile_cons_of_neg (by simp [hc]), List.dropWhile_cons_of_neg (by simp [hc])]
      simp

/-- What may stand among the digits of a decimal number. -/
def isPlace (c : Char) : Bool := isDigitIn 10 c || c = '_'

theorem isPlace_of_isDigit {c : Char} (h : isDigit c = true) : isPlace c = true := by
  simp [isPlace, isDigitIn_ten h]

theorem filter_digits {digits : List Char} (h : ∀ c ∈ digits, isDigit c = true) :
    digits.filter (· ≠ '_') = digits := by
  rw [List.filter_eq_self]
  intro c hc
  have hne : c ≠ '_' := by
    rintro rfl
    exact absurd (h _ hc) (by decide)
  simpa using hne

section Body

variable {whole fraction : List Char} (hw : ∀ c ∈ whole, isDigit c = true)
  (hf : ∀ c ∈ fraction, isDigit c = true) (hne : whole ≠ [])

include hw hne

/-- A number with a point, and nothing or an exponent after it. -/
theorem readBody_point (rest : List Char) (hr : ∀ c ∈ rest.head?, isPlace c = false)
    (hf : ∀ c ∈ fraction, isDigit c = true) :
    Fractional.readBody false (whole ++ '.' :: (fraction ++ rest)) =
      match rest with
      | [] => some ⟨false, whole ++ fraction, fraction.length, 0⟩
      | mark :: rest =>
        if lower mark = 'e' then
          (readExponent rest).map fun e => ⟨false, whole ++ fraction, fraction.length, e⟩
        else none := by
  have hspan : (whole ++ '.' :: (fraction ++ rest)).span isPlace =
      (whole, '.' :: (fraction ++ rest)) :=
    span_digits (fun c hc => isPlace_of_isDigit (hw c hc)) (by simp; decide)
  have hspan' : (fraction ++ rest).span isPlace = (fraction, rest) :=
    span_digits (fun c hc => isPlace_of_isDigit (hf c hc)) hr
  have hplace : (fun c => isDigitIn (if false = true then 16 else 10) c || decide (c = '_')) =
      isPlace := rfl
  unfold Fractional.readBody
  simp only [hplace, hspan, hspan', filter_digits hw, filter_digits hf]
  have hdigits : (whole ++ fraction).isEmpty = false := by
    cases whole with
    | nil => exact absurd rfl hne
    | cons c cs => rfl
  rw [hdigits]
  cases rest with
  | nil => simp
  | cons mark rest => simp

/-- Digits and an exponent, without a point. -/
theorem readBody_exponent (rest : List Char) :
    Fractional.readBody false (whole ++ 'e' :: rest) =
      (readExponent rest).map fun e => ⟨false, whole, 0, e⟩ := by
  have hspan : (whole ++ 'e' :: rest).span isPlace = (whole, 'e' :: rest) :=
    span_digits (fun c hc => isPlace_of_isDigit (hw c hc)) (by simp; decide)
  have hplace : (fun c => isDigitIn (if false = true then 16 else 10) c || decide (c = '_')) =
      isPlace := rfl
  have hlower : lower 'e' = 'e' := by decide
  have hdigits : whole.isEmpty = false := by
    cases whole with
    | nil => exact absurd rfl hne
    | cons c cs => rfl
  unfold Fractional.readBody
  simp only [hplace, hspan, filter_digits hw]
  simp [hdigits, hlower]

end Body

/-- Without a base mark and underscores, a number is decimal. -/
theorem read_eq_readBody {cs : List Char} (hx : ∀ c ∈ cs, lower c ≠ 'x') (hu : '_' ∉ cs) :
    Fractional.read cs = Fractional.readBody false cs := by
  have hfilter : ∀ parts : Option Fractional,
      parts.filter (fun _ => !cs.contains '_' || underscoresOk cs) = parts := by
    intro parts
    cases parts with
    | none => rfl
    | some r => simp [hu]
  unfold Fractional.read
  dsimp only
  rw [hfilter]
  split
  · rename_i m d rest
    rw [if_neg (hx m (by simp))]
  · rfl

/-- An exponent of few digits has the value of its digits. -/
theorem exponentValue_eq {digits : List Char} (h : ∀ c ∈ digits, isDigit c = true)
    (hsmall : Nat.ofDigitChars 10 digits 0 < 10000) :
    exponentValue digits = Nat.ofDigitChars 10 digits 0 := by
  have key : ∀ n, Nat.ofDigitChars 10 digits n < 10000 →
      digits.foldl (fun e c => if e < 10000 then e * 10 + (digitValue? c).getD 0 else e) n =
        Nat.ofDigitChars 10 digits n := by
    clear hsmall
    induction digits with
    | nil => exact fun n _ => rfl
    | cons c digits ih =>
        intro n hn
        rw [Nat.ofDigitChars_cons] at hn ⊢
        -- what was read so far is at most the whole
        have hle : n ≤ Nat.ofDigitChars 10 digits (10 * n + (c.toNat - '0'.toNat)) := by
          rw [Nat.ofDigitChars_eq_ofDigitChars_zero]
          have hpow : 1 ≤ 10 ^ digits.length := Nat.one_le_pow _ _ (by decide)
          nlinarith [Nat.zero_le (Nat.ofDigitChars 10 digits 0)]
        rw [List.foldl_cons, if_pos (by omega), digitValue?_of_isDigit (h c (by simp)),
          Nat.mul_comm n 10]
        exact ih (fun x hx => h x (by simp [hx])) _ hn
  exact key 0 hsmall

/-- The characters that a written number is made of. -/
def isNumeralChar (c : Char) : Bool := isDigit c || ['.', 'e', '+', '-'].contains c

theorem isNumeralChar_of_isDigit {c : Char} (h : isDigit c = true) : isNumeralChar c = true := by
  simp [isNumeralChar, h]

/-- None of them is a base mark or an underscore. -/
theorem lower_ne_of_isNumeralChar {c : Char} (h : isNumeralChar c = true) :
    lower c ≠ 'x' ∧ c ≠ '_' := by
  have hcases : isDigit c = true ∨ c ∈ ['.', 'e', '+', '-'] := by
    simpa [isNumeralChar] using h
  rcases hcases with hd | hm
  · have hbounds := toNat_of_isDigit hd
    have hlower : lower c = c := by
      unfold lower
      rw [if_neg]
      rintro ⟨hA, -⟩
      have : 65 ≤ c.toNat := hA
      omega
    constructor
    · rw [hlower]
      rintro rfl
      exact absurd hbounds (by decide)
    · rintro rfl
      exact absurd hbounds (by decide)
  · have hall : ∀ c ∈ ['.', 'e', '+', '-'], lower c ≠ 'x' ∧ c ≠ '_' :=
      forall_mem_of_all (by decide)
    exact hall c hm

end Numeral

namespace Decimal

open Numeral

/-! ## Written decimals -/

/-- What is read as the decimal `d`, a power of ten apart, has its ratio. -/
theorem ratio_eq {d : Decimal} {digits : List Char} {places k : Nat} {e : Int}
    (hvalue : digitsValue 10 digits = d.digits * 10 ^ k) (hexp : e - places = d.exponent - k) :
    (⟨false, digits, places, e⟩ : Fractional).ratio.1 * d.ratio.2 =
        d.ratio.1 * (⟨false, digits, places, e⟩ : Fractional).ratio.2 ∧
      0 < (⟨false, digits, places, e⟩ : Fractional).ratio.2 := by
  simp only [Fractional.ratio, ratio, Bool.false_eq_true, if_false, hvalue, hexp, Nat.pow_eq]
  constructor
  · have hpow : 10 ^ k * 10 ^ (d.exponent - k).toNat * 10 ^ (-d.exponent).toNat =
        10 ^ d.exponent.toNat * 10 ^ (-(d.exponent - k)).toNat := by
      rw [← Nat.pow_add, ← Nat.pow_add, ← Nat.pow_add]
      congr 1
      omega
    calc d.digits * 10 ^ k * 10 ^ (d.exponent - k).toNat * 10 ^ (-d.exponent).toNat
        = d.digits * (10 ^ k * 10 ^ (d.exponent - k).toNat * 10 ^ (-d.exponent).toNat) := by ring
      _ = d.digits * (10 ^ d.exponent.toNat * 10 ^ (-(d.exponent - k)).toNat) := by rw [hpow]
      _ = d.digits * 10 ^ d.exponent.toNat * 10 ^ (-(d.exponent - k)).toNat := by ring
  · exact Nat.pow_pos (by decide)

/-- The text `cs` is a number that is no integer and has the value of `d`. -/
structure Spells (cs : List Char) (d : Decimal) : Prop where
  chars : ∀ c ∈ cs, isNumeralChar c = true
  head : ∃ c rest, cs = c :: rest ∧ isDigit c = true
  mark : ∃ c ∈ cs, isDigit c = false
  value : ∃ r, Fractional.readBody false cs = some r ∧
    r.ratio.1 * d.ratio.2 = d.ratio.1 * r.ratio.2 ∧ 0 < r.ratio.2

/-- A text that spells a decimal reads as its value. -/
theorem Spells.read {cs : List Char} {d : Decimal} (h : Spells cs d) :
    ∃ r, Fractional.read cs = some r ∧ r.ratio.1 * d.ratio.2 = d.ratio.1 * r.ratio.2 ∧
      0 < r.ratio.2 := by
  rw [read_eq_readBody (fun c hc => (lower_ne_of_isNumeralChar (h.chars c hc)).1)
    fun hu => (lower_ne_of_isNumeralChar (h.chars _ hu)).2 rfl]
  exact h.value

/-- A text that spells a decimal does not read as an integer. -/
theorem Spells.readInt32 {cs : List Char} {d : Decimal} (h : Spells cs d) :
    Numeral.readInt32 cs = none := by
  obtain ⟨c, hc, hd⟩ := h.mark
  exact readInt32_of_not_isDigit hc hd

/-- Positional notation. -/
theorem spells_point {d : Decimal} {whole fraction : List Char} {k : Nat} (hne : whole ≠ [])
    (hw : ∀ c ∈ whole, isDigit c = true) (hf : ∀ c ∈ fraction, isDigit c = true)
    (hvalue : Nat.ofDigitChars 10 (whole ++ fraction) 0 = d.digits * 10 ^ k)
    (hexp : -(fraction.length : Int) = d.exponent - k) : Spells (whole ++ '.' :: fraction) d := by
  have hall : ∀ c ∈ whole ++ fraction, isDigit c = true := by
    intro c hc
    rcases List.mem_append.mp hc with hc | hc
    · exact hw c hc
    · exact hf c hc
  have hbody := readBody_point hw hne [] (by simp) hf
  rw [List.append_nil] at hbody
  refine ⟨?_, ?_, ⟨'.', by simp, by decide⟩, _, hbody, ?_⟩
  · intro c hc
    rcases List.mem_append.mp hc with hc | hc
    · exact isNumeralChar_of_isDigit (hw c hc)
    · rcases List.mem_cons.mp hc with rfl | hc
      · decide
      · exact isNumeralChar_of_isDigit (hf c hc)
  · cases whole with
    | nil => exact absurd rfl hne
    | cons c rest => exact ⟨c, _, rfl, hw c (by simp)⟩
  · exact ratio_eq (by rw [digitsValue_eq hall, hvalue]) (by omega)

/-- An exponent of moderate size reads back. -/
theorem readExponent_exponentText {e : Int} (h : e.natAbs < 10000) :
    readExponent (exponentText e).toList = some e ∧
      ∀ c ∈ (exponentText e).toList, isNumeralChar c = true := by
  -- the digits after the sign, at least two of them
  obtain ⟨body, hbody, hdigits, hvalue, hne⟩ : ∃ body, (exponentText e).toList =
      (if e < 0 then '-' else '+') :: body ∧ (∀ c ∈ body, isDigit c = true) ∧
      Nat.ofDigitChars 10 body 0 = e.natAbs ∧ body ≠ [] := by
    unfold exponentText
    dsimp only
    have hrepr : (Nat.repr e.natAbs).toList = Nat.toDigits 10 e.natAbs := Nat.toList_repr
    have hsign : (if e < 0 then "-" else "+").toList = [if e < 0 then '-' else '+'] := by
      split <;> rfl
    by_cases hlen : (Nat.repr e.natAbs).length < 2
    · refine ⟨'0' :: Nat.toDigits 10 e.natAbs, ?_, ?_, ?_, by simp⟩
      · rw [if_pos hlen, String.toList_append, String.toList_append, hsign, hrepr]
        rfl
      · intro c hc
        rcases List.mem_cons.mp hc with rfl | hc
        · exact isDigit_zero
        · exact isDigit_of_mem_toDigits hc
      · rw [Nat.ofDigitChars_cons]
        exact Nat.ofDigitChars_ten_toDigits
    · refine ⟨Nat.toDigits 10 e.natAbs, ?_, fun c hc => isDigit_of_mem_toDigits hc,
        Nat.ofDigitChars_ten_toDigits, Nat.toDigits_ne_nil⟩
      rw [if_neg hlen, String.toList_append, hsign, hrepr]
      rfl
  rw [hbody]
  constructor
  · have hfilter : body.filter isDigit = body := List.filter_eq_self.mpr hdigits
    have hall : body.all (fun c => isDigit c || c = '_') = true := by
      rw [List.all_eq_true]
      intro c hc
      simp [hdigits c hc]
    have hexp : exponentValue body = e.natAbs := by
      rw [exponentValue_eq hdigits (by omega), hvalue]
    cases body with
    | nil => exact absurd rfl hne
    | cons c body =>
        have hc := hdigits c (by simp)
        by_cases hneg : e < 0
        · simp only [hneg, if_true, readExponent, hc, hall, Bool.and_self, hfilter, hexp]
          exact congrArg some (by omega)
        · simp only [hneg, if_false, readExponent, hc, hall, Bool.and_self, if_true, hfilter, hexp,
            Bool.false_eq_true]
          exact congrArg some (by omega)
  · intro c hc
    rcases List.mem_cons.mp hc with rfl | hc
    · split <;> decide
    · exact isNumeralChar_of_isDigit (hdigits c hc)

/-- Exponent notation: the first digit, the others after a point, and the exponent. -/
theorem spells_scientific {d : Decimal} {c : Char} {digits : List Char} {lead : Int}
    (hdigits : ∀ x ∈ c :: digits, isDigit x = true)
    (hvalue : Nat.ofDigitChars 10 (c :: digits) 0 = d.digits)
    (hlead : lead = d.exponent + digits.length) (hsmall : lead.natAbs < 10000) :
    Spells (scientificText (c :: digits) lead).toList d := by
  obtain ⟨hread, hchars⟩ := readExponent_exponentText hsmall
  have htext : (scientificText (c :: digits) lead).toList =
      [c] ++ ((if digits.isEmpty then [] else '.' :: digits) ++
        'e' :: (exponentText lead).toList) := by
    unfold scientificText
    simp only [List.drop_one, List.tail_cons, String.toList_append, String.toList_ofList,
      List.take_succ_cons, List.take_zero]
    simp
  have hsingle : ∀ x ∈ [c], isDigit x = true := fun x hx => hdigits x (by simp_all)
  have hrest : ∀ x ∈ digits, isDigit x = true := fun x hx => hdigits x (by simp [hx])
  have hdecimal : digitsValue 10 (c :: digits) = d.digits * 10 ^ 0 := by
    rw [digitsValue_eq hdigits, hvalue, Nat.pow_zero, Nat.mul_one]
  have hexp : lead - (digits.length : Int) = d.exponent - (0 : Nat) := by omega
  have hratio := ratio_eq hdecimal hexp
  rw [htext]
  refine ⟨?_, ⟨c, _, rfl, hdigits c (by simp)⟩, ⟨'e', by simp, by decide⟩, ?_⟩
  · intro x hx
    rcases List.mem_append.mp hx with hx | hx
    · exact isNumeralChar_of_isDigit (hsingle x hx)
    · rcases List.mem_append.mp hx with hx | hx
      · split at hx
        · simp at hx
        · rcases List.mem_cons.mp hx with rfl | hx
          · decide
          · exact isNumeralChar_of_isDigit (hrest x hx)
      · rcases List.mem_cons.mp hx with rfl | hx
        · decide
        · exact hchars x hx
  · cases hcase : digits with
    | nil =>
        rw [hcase] at hratio
        refine ⟨_, ?_, hratio⟩
        have hbody := readBody_exponent hsingle (by simp) (exponentText lead).toList
        rw [hread] at hbody
        exact hbody
    | cons x xs =>
        rw [← hcase]
        refine ⟨⟨false, c :: digits, digits.length, lead⟩, ?_, hratio⟩
        have hbody := readBody_point hsingle (by simp) ('e' :: (exponentText lead).toList)
          (by simp; decide) hrest
        have hempty : digits.isEmpty = false := by rw [hcase]; rfl
        have hlower : lower 'e' = 'e' := by decide
        simp only [hread, hlower, if_true, Option.map_some] at hbody
        rw [hempty, if_neg (by simp), List.cons_append]
        exact hbody

/-- A text that could be an integer is marked as a float by a point and a zero. -/
theorem toList_markFloat (text : String) : (markFloat text).toList =
    if text.toList.any (fun c => c = '.' || c = 'e' || c = 'I' || c = 'N') then text.toList
    else text.toList ++ ['.', '0'] := by
  unfold markFloat
  split
  · rfl
  · rw [String.toList_append]
    rfl

/-- A mark is added exactly where a text of digits has none. -/
theorem toList_markFloat_of_isDigit {text : String} (h : ∀ c ∈ text.toList, isDigit c = true) :
    (markFloat text).toList = text.toList ++ ['.', '0'] := by
  rw [toList_markFloat, if_neg]
  rw [List.any_eq_true]
  rintro ⟨c, hc, hmark⟩
  have hd := h c hc
  simp only [Bool.or_eq_true, decide_eq_true_eq] at hmark
  rcases hmark with ((rfl | rfl) | rfl) | rfl <;> exact absurd hd (by decide)

/-- A text with a point or an exponent needs no mark. -/
theorem toList_markFloat_of_mem {text : String} {c : Char} (hc : c ∈ text.toList)
    (hm : c = '.' ∨ c = 'e') : (markFloat text).toList = text.toList := by
  rw [toList_markFloat, if_pos]
  rw [List.any_eq_true]
  refine ⟨c, hc, ?_⟩
  rcases hm with rfl | rfl <;> simp

theorem ofDigitChars_append_zeros (digits : List Char) (n : Nat) :
    Nat.ofDigitChars 10 (digits ++ List.replicate n '0') 0 =
      Nat.ofDigitChars 10 digits 0 * 10 ^ n := by
  rw [Nat.ofDigitChars_append, Nat.ofDigitChars_replicate_zero, Nat.mul_comm]

theorem ofDigitChars_zeros_append (digits : List Char) (n : Nat) :
    Nat.ofDigitChars 10 (List.replicate n '0' ++ digits) 0 = Nat.ofDigitChars 10 digits 0 := by
  rw [Nat.ofDigitChars_append, Nat.ofDigitChars_replicate_zero, Nat.mul_zero]

theorem isDigit_of_mem_zeros {n : Nat} {c : Char} (h : c ∈ List.replicate n '0') :
    isDigit c = true := by
  rw [List.eq_of_mem_replicate h]
  exact isDigit_zero

/-- Positional notation, with a mark added if there is no point. -/
theorem spells_positional {d : Decimal} {digits : List Char} {lead : Int} (hne : digits ≠ [])
    (hdigits : ∀ x ∈ digits, isDigit x = true)
    (hvalue : Nat.ofDigitChars 10 digits 0 = d.digits)
    (hlead : lead = d.exponent + digits.length - 1) :
    Spells (markFloat (positionalText digits lead)).toList d := by
  have hlen : 0 < digits.length := List.length_pos_iff.mpr hne
  unfold positionalText
  by_cases hneg : lead < 0
  · -- zeros between the point and the first digit
    rw [if_pos hneg, toList_markFloat_of_mem (c := '.') (by simp) (.inl rfl), String.toList_ofList]
    set zeros := List.replicate (-lead - 1).toNat '0' with hzeros
    have hspells : Spells (['0'] ++ '.' :: (zeros ++ digits)) d := by
      refine spells_point (k := 0) (by simp) (by simp; decide) ?_ ?_ ?_
      · intro c hc
        rcases List.mem_append.mp hc with hc | hc
        · exact isDigit_of_mem_zeros hc
        · exact hdigits c hc
      · have hfront : ['0'] ++ (zeros ++ digits) =
            List.replicate (1 + (-lead - 1).toNat) '0' ++ digits := by
          rw [← List.replicate_append_replicate, List.append_assoc]
          rfl
        rw [hfront, ofDigitChars_zeros_append, hvalue, Nat.pow_zero, Nat.mul_one]
      · rw [hzeros, List.length_append, List.length_replicate]
        omega
    exact hspells
  · rw [if_neg hneg]
    dsimp only
    set whole := (lead + 1).toNat with hwhole
    by_cases hshort : digits.length ≤ whole
    · -- no digit is left for the fraction
      have hdrop : digits.drop whole = [] := List.drop_eq_nil_of_le hshort
      have htake : digits.take whole = digits := List.take_of_length_le hshort
      rw [hdrop, htake, List.isEmpty_nil, if_pos rfl, List.append_nil]
      set zeros := List.replicate (whole - digits.length) '0' with hzeros
      have hall : ∀ c ∈ digits ++ zeros, isDigit c = true := by
        intro c hc
        rcases List.mem_append.mp hc with hc | hc
        · exact hdigits c hc
        · exact isDigit_of_mem_zeros hc
      rw [toList_markFloat_of_isDigit (by rw [String.toList_ofList]; exact hall),
        String.toList_ofList]
      refine spells_point (k := whole - digits.length + 1) (by simp [hne]) hall (by simp; decide)
        ?_ ?_
      · have hback : digits ++ zeros ++ ['0'] =
            digits ++ List.replicate (whole - digits.length + 1) '0' := by
          rw [← List.replicate_append_replicate, List.append_assoc]
          rfl
        rw [hback, ofDigitChars_append_zeros, hvalue]
      · simp only [List.length_singleton]
        omega
    · -- the point stands between two digits
      have hzeros : whole - digits.length = 0 := by omega
      have hdrop : (digits.drop whole).isEmpty = false := by
        rw [List.isEmpty_eq_false_iff]
        intro h
        have := congrArg List.length h
        rw [List.length_drop, List.length_nil] at this
        omega
      rw [hzeros, List.replicate_zero, List.append_nil, hdrop, if_neg (by simp)]
      have hpoint :
          '.' ∈ (String.ofList (digits.take whole ++ '.' :: digits.drop whole)).toList := by
        simp
      rw [toList_markFloat_of_mem hpoint (.inl rfl), String.toList_ofList]
      refine spells_point (k := 0) ?_ (fun c hc => hdigits c (List.mem_of_mem_take hc))
        (fun c hc => hdigits c (List.mem_of_mem_drop hc)) ?_ ?_
      · intro h
        have := congrArg List.length h
        rw [List.length_take, List.length_nil] at this
        omega
      · rw [List.take_append_drop, hvalue, Nat.pow_zero, Nat.mul_one]
      · rw [List.length_drop]
        omega

/-- The text of a decimal, marked as a float, spells it. -/
theorem spells_text {d : Decimal}
    (hsmall : (d.exponent + (Nat.toDigits 10 d.digits).length - 1).natAbs < 10000) :
    Spells (markFloat (d.text literalRange)).toList d := by
  have hrepr : (Nat.repr d.digits).toList = Nat.toDigits 10 d.digits := Nat.toList_repr
  have hdigits : ∀ c ∈ Nat.toDigits 10 d.digits, isDigit c = true := fun c hc =>
    isDigit_of_mem_toDigits hc
  have hvalue : Nat.ofDigitChars 10 (Nat.toDigits 10 d.digits) 0 = d.digits :=
    Nat.ofDigitChars_ten_toDigits
  have hne : Nat.toDigits 10 d.digits ≠ [] := Nat.toDigits_ne_nil
  unfold text
  simp only [hrepr]
  generalize Nat.toDigits 10 d.digits = digits at *
  split
  · cases digits with
    | nil => exact absurd rfl hne
    | cons c digits =>
        have hspells : Spells (scientificText (c :: digits)
            (d.exponent + (c :: digits).length - 1)).toList d :=
          spells_scientific hdigits hvalue (by simp only [List.length_cons]; omega) hsmall
        have he : 'e' ∈ (scientificText (c :: digits)
            (d.exponent + (c :: digits).length - 1)).toList := by
          unfold scientificText
          simp
        rw [toList_markFloat_of_mem he (.inr rfl)]
        exact hspells
  · exact spells_positional hne hdigits hvalue rfl

/-- The decimal that is written for a finite pattern without a sign. -/
def ofMagnitude (mag : Nat) : Decimal := if mag = 0 then ⟨0, 0⟩ else shortest mag

/-- What is written for a finite pattern without its sign spells its decimal. -/
theorem spells_magnitude {mag : Nat} (h : mag < Binary32.infinity) :
    Spells (markFloat (if mag = 0 then "0" else (shortest mag).text literalRange)).toList
      (ofMagnitude mag) := by
  unfold ofMagnitude
  by_cases hzero : mag = 0
  · rw [if_pos hzero, if_pos hzero]
    exact spells_text (d := ⟨0, 0⟩) (by decide)
  · rw [if_neg hzero, if_neg hzero]
    have hpos : 0 < mag := by omega
    obtain ⟨-, -, hlow, hhigh⟩ := shortest_mem hpos
    have hlen : (Nat.toDigits 10 (shortest mag).digits).length ≤ 100 :=
      (Nat.length_toDigits_le_iff (by decide) (by decide)).mpr (digits_shortest_lt hpos h)
    exact spells_text (by omega)

/-- A sign does not change how a text is marked. -/
theorem toList_markFloat_minus (text : String) :
    (markFloat ("-" ++ text)).toList = '-' :: (markFloat text).toList := by
  have hminus : ("-" ++ text).toList = '-' :: text.toList := String.toList_append
  rw [toList_markFloat, toList_markFloat, hminus, List.any_cons]
  have hmark : (decide ('-' = '.') || decide ('-' = 'e') || decide ('-' = 'I') ||
      decide ('-' = 'N')) = false := by decide
  rw [hmark, Bool.false_or]
  split
  · rfl
  · rfl

/-- A finite pattern is written as its sign and a number that spells the decimal of the rest. -/
theorem exists_spells_floatText {bits : UInt32} (h : Binary32.magnitude bits < Binary32.infinity) :
    ∃ cs, Spells cs (ofMagnitude (Binary32.magnitude bits)) ∧
      (floatText bits).toList = if Binary32.isNegative bits then '-' :: cs else cs := by
  refine ⟨_, spells_magnitude h, ?_⟩
  unfold floatText
  dsimp only
  rw [if_neg (Nat.lt_asymm h), if_neg (Nat.ne_of_lt h)]
  cases Binary32.isNegative bits with
  | true =>
      rw [if_pos rfl, if_pos rfl, ← toList_markFloat_minus]
      split
      · rfl
      · rfl
  | false =>
      have hnone : ∀ text : String, (if false = true then "-" else "") ++ text = text := by simp
      rw [hnone, hnone]
      rfl

/-- The text of a finite pattern spells the decimal that it stands for. -/
theorem spells_floatText {bits : UInt32} (h : bits.toNat < Binary32.infinity) :
    Spells (floatText bits).toList (ofMagnitude bits.toNat) := by
  have hinf : Binary32.infinity < 2 ^ 31 := by decide
  have hmag : Binary32.magnitude bits = bits.toNat := Nat.mod_eq_of_lt (by omega)
  have hsign : Binary32.isNegative bits = false := by
    unfold Binary32.isNegative
    rw [decide_eq_false_iff_not, UInt32.le_iff_toNat_le]
    have : (0x80000000 : UInt32).toNat = 2 ^ 31 := by decide
    omega
  obtain ⟨cs, hspells, htext⟩ := exists_spells_floatText (hmag.trans_lt h)
  rw [hsign, if_neg (by simp)] at htext
  rw [htext, ← hmag]
  exact hspells

/-- A text that spells the decimal of a pattern reads back as the pattern. -/
theorem Spells.readBinary32 {cs : List Char} {bits : UInt32}
    (h : Spells cs (ofMagnitude bits.toNat)) (hfin : bits.toNat < Binary32.infinity) :
    Numeral.readBinary32 cs = some bits := by
  obtain ⟨r, hread, hratio, hden⟩ := h.read
  have hround : Binary32.roundRatio r.ratio.1 r.ratio.2 = bits.toNat := by
    unfold ofMagnitude at hratio
    by_cases hzero : bits.toNat = 0
    · rw [if_pos hzero] at hratio
      have hnum : r.ratio.1 = 0 := by simpa [ratio] using hratio
      rw [hnum, hzero]
      exact Binary32.roundRatio_zero hden
    · rw [if_neg hzero] at hratio
      have hpos : 0 < bits.toNat := by omega
      obtain ⟨-, hmem, -, -⟩ := shortest_mem hpos
      apply Binary32.roundRatio_of_contains hpos hfin hden
      have hden' : 0 < (shortest bits.toNat).ratio.2 := Nat.pow_pos (by decide)
      rw [contains_congr _ hden' hden]
      · exact hmem
      · rw [Nat.mul_right_comm, hratio, Nat.mul_right_comm]
  unfold Numeral.readBinary32
  rw [hread]
  dsimp only
  rw [hround, if_pos hfin, UInt32.ofNat_toNat]

end Decimal

end Straightline
