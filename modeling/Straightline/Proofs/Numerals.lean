import Straightline.Proofs.Spelling

/-!
# The syntax of numerals

The readers of numbers work through a text in passes: they cut it at the point and at the exponent
mark, drop the underscores, and check in a separate pass over the whole text where the underscores
were. Here is what they accept, as a grammar.

An integer is a non-empty run of decimal digits with a value below 2³¹ (`readInt32_eq_some_iff`). A
fractional number is a mantissa and an exponent; single underscores may separate the digits of a
run, and one may follow the base mark `0x`. The readers accept the texts of the grammar and no
others, and find in them the parts that the grammar tells apart (`Fractional.read_eq_some_iff`).
-/

set_option autoImplicit false

namespace Straightline.Numeral

/-! ## Integers -/

/-- Leading zeros do not count. -/
theorem ofDigitChars_dropWhile (cs : List Char) :
    Nat.ofDigitChars 10 (cs.dropWhile (· = '0')) 0 = Nat.ofDigitChars 10 cs 0 := by
  induction cs with
  | nil => rfl
  | cons c cs ih =>
      by_cases hc : c = '0'
      · subst hc
        rw [List.dropWhile_cons_of_pos (by simp), ih, Nat.ofDigitChars_cons]
        rfl
      · rw [List.dropWhile_cons_of_neg (by simpa using hc)]

/-- A number whose first digit is not zero is at least a power of ten. -/
theorem pow_le_ofDigitChars {c : Char} (cs : List Char) (hc : isDigit c = true) (hne : c ≠ '0') :
    10 ^ cs.length ≤ Nat.ofDigitChars 10 (c :: cs) 0 := by
  have hbounds := toNat_of_isDigit hc
  have hpos : 48 < c.toNat := by
    refine Nat.lt_of_le_of_ne hbounds.1 fun heq => hne ?_
    rw [← Char.ofNat_toNat c, ← heq]
  have hdigit : 1 ≤ c.toNat - '0'.toNat := Nat.le_sub_of_add_le hpos
  rw [Nat.ofDigitChars_cons, Nat.ofDigitChars_eq_ofDigitChars_zero]
  calc 10 ^ cs.length = 10 ^ cs.length * 1 := (Nat.mul_one _).symm
    _ ≤ 10 ^ cs.length * (10 * 0 + (c.toNat - '0'.toNat)) :=
      Nat.mul_le_mul_left _ (by omega)
    _ ≤ _ := Nat.le_add_right _ _

/-- The value of a run of decimal digits is read if it is below 2³¹. -/
theorem readInt32_eq_some_iff {cs : List Char} {n : Nat} :
    readInt32 cs = some n ↔
      cs ≠ [] ∧ (∀ c ∈ cs, isDigit c = true) ∧ Nat.ofDigitChars 10 cs 0 = n ∧ n < 2 ^ 31 := by
  by_cases hne : cs = []
  · simp [hne, readInt32]
  by_cases hall : ∀ c ∈ cs, isDigit c = true
  · have hsub : ∀ c ∈ cs.dropWhile (· = '0'), isDigit c = true := fun c hc =>
      hall c ((List.dropWhile_suffix _).subset hc)
    have hvalue : digitsValue 10 (cs.dropWhile (· = '0')) = Nat.ofDigitChars 10 cs 0 := by
      rw [digitsValue_eq hsub, ofDigitChars_dropWhile]
    unfold readInt32
    dsimp only
    rw [hvalue]
    by_cases hlen : 10 < (cs.dropWhile (· = '0')).length
    · -- eleven digits are too many
      have hbig : 10 ^ 10 ≤ Nat.ofDigitChars 10 cs 0 := by
        rw [← ofDigitChars_dropWhile]
        cases hcs : cs.dropWhile (· = '0') with
        | nil => simp [hcs] at hlen
        | cons c rest =>
            rw [hcs] at hlen hsub
            have hc : c ≠ '0' := by
              have h := List.head?_dropWhile_not (· = '0') cs
              rw [hcs] at h
              simpa using h
            refine Nat.le_trans ?_ (pow_le_ofDigitChars rest (hsub c (by simp)) hc)
            exact Nat.pow_le_pow_right (by decide) (Nat.le_of_lt_succ hlen)
      simp only [hlen, decide_true, Bool.or_true, if_true]
      constructor
      · simp
      · rintro ⟨-, -, rfl, hlt⟩
        omega
    · have hguard : (cs.isEmpty || !cs.all isDigit ||
          decide (10 < (cs.dropWhile (· = '0')).length)) = false := by
        simp [hne, List.all_eq_true.mpr hall, hlen]
      rw [hguard, if_neg (by simp)]
      split
      · next hlt =>
          constructor
          · rintro ⟨⟩
            exact ⟨hne, hall, rfl, hlt⟩
          · rintro ⟨-, -, rfl, -⟩
            rfl
      · next hge =>
          constructor
          · simp
          · rintro ⟨-, -, rfl, hlt⟩
            exact absurd hlt hge
  · have hnone : readInt32 cs = none := by
      push Not at hall
      obtain ⟨c, hc, hd⟩ := hall
      exact readInt32_of_not_isDigit hc (by simpa using hd)
    simp [hnone, hall]

/-! ## The grammar of fractional numbers -/

/-- A run of digits, with single underscores between some of them, and the digits alone. -/
inductive Run (base : Nat) : List Char → List Char → Prop where
  | last {c : Char} (hc : isDigitIn base c = true) : Run base [c] [c]
  | next {c : Char} {text digits : List Char} (hc : isDigitIn base c = true)
      (h : Run base text digits) : Run base (c :: text) (c :: digits)
  | apart {c : Char} {text digits : List Char} (hc : isDigitIn base c = true)
      (h : Run base text digits) : Run base (c :: '_' :: text) (c :: digits)

/-- Digits with at most one point, the digits alone, and how many of them follow the point. -/
inductive Mantissa (base : Nat) : List Char → List Char → Nat → Prop where
  | whole {text digits : List Char} (h : Run base text digits) : Mantissa base text digits 0
  | point {text digits : List Char} (h : Run base text digits) :
      Mantissa base (text ++ ['.']) digits 0
  | places {text digits text' places : List Char} (h : Run base text digits)
      (h' : Run base text' places) :
      Mantissa base (text ++ '.' :: text') (digits ++ places) places.length
  | fraction {text' places : List Char} (h' : Run base text' places) :
      Mantissa base ('.' :: text') places places.length

/-- A mark, a sign or none, a run of decimal digits, and the exponent that these stand for. -/
inductive Exponent (mark : Char) : List Char → Int → Prop where
  | plain {m : Char} {text digits : List Char} (hm : lower m = mark) (h : Run 10 text digits) :
      Exponent mark (m :: text) (exponentValue digits)
  | plus {m : Char} {text digits : List Char} (hm : lower m = mark) (h : Run 10 text digits) :
      Exponent mark (m :: '+' :: text) (exponentValue digits)
  | minus {m : Char} {text digits : List Char} (hm : lower m = mark) (h : Run 10 text digits) :
      Exponent mark (m :: '-' :: text) (-exponentValue digits)

/-- The text of a fractional number, and its parts. -/
inductive Fractional.Writes : List Char → Fractional → Prop where
  | plain {text digits : List Char} {n : Nat} (hm : Mantissa 10 text digits n) :
      Writes text ⟨false, digits, n, 0⟩
  | scaled {text digits exp : List Char} {n : Nat} {e : Int} (hm : Mantissa 10 text digits n)
      (he : Exponent 'e' exp e) : Writes (text ++ exp) ⟨false, digits, n, e⟩
  | hex {x : Char} {text digits exp : List Char} {n : Nat} {e : Int} (hx : lower x = 'x')
      (hm : Mantissa 16 text digits n) (he : Exponent 'p' exp e) :
      Writes ('0' :: x :: (text ++ exp)) ⟨true, digits, n, e⟩
  | hexSeparated {x : Char} {text digits exp : List Char} {n : Nat} {e : Int} (hx : lower x = 'x')
      (hm : Mantissa 16 text digits n) (hhead : text.head? ≠ some '.') (he : Exponent 'p' exp e) :
      Writes ('0' :: x :: '_' :: (text ++ exp)) ⟨true, digits, n, e⟩

/-! ## Places and underscores -/

/-- The base of a number with or without the mark `0x`. -/
def radix : Bool → Nat
  | true => 16
  | false => 10

/-- What may stand among the digits of a number. -/
def isPlaceIn (base : Nat) (c : Char) : Bool := isDigitIn base c || c = '_'

theorem isDigitIn_radix (hex : Bool) (c : Char) :
    isDigitIn (if hex then 16 else 10) c = isDigitIn (radix hex) c := by
  cases hex <;> rfl

theorem isDigit_of_isDigitIn_ten {c : Char} (h : isDigitIn 10 c = true) : isDigit c = true := by
  by_contra hd
  unfold isDigitIn digitValue? at h
  rw [if_neg hd] at h
  split at h
  · next d hsome =>
      split at hsome
      · have hd : d = (lower c).toNat - 'a'.toNat + 10 := (Option.some.inj hsome).symm
        have hlt : d < 10 := of_decide_eq_true h
        omega
      · cases hsome
  · cases h

theorem isDigitIn_underscore (hex : Bool) : isDigitIn (radix hex) '_' = false := by
  cases hex <;> decide

theorem isDigitIn_of_isDigit {c : Char} (h : isDigit c = true) (hex : Bool) :
    isDigitIn (radix hex) c = true := by
  rw [isDigitIn, digitValue?_of_isDigit h]
  have hc := toNat_of_isDigit h
  cases hex <;> exact decide_eq_true (by simp only [radix]; omega)

section Separated

variable {hex : Bool}

theorem separated_digit {c : Char} (hc : isDigitIn (radix hex) c = true) (last : Last)
    (rest : List Char) : separated hex last (c :: rest) = separated hex .digit rest := by
  rw [separated, isDigitIn_radix, if_pos hc]

theorem separated_underscore (last : Last) (rest : List Char) :
    separated hex last ('_' :: rest) = (last = .digit && separated hex .underscore rest) := by
  rw [separated, isDigitIn_radix, isDigitIn_underscore, if_neg (by simp), if_pos rfl]

theorem separated_other {c : Char} (hc : isPlaceIn (radix hex) c = false) (last : Last)
    (rest : List Char) :
    separated hex last (c :: rest) = (last ≠ .underscore && separated hex .other rest) := by
  have hparts : isDigitIn (radix hex) c = false ∧ c ≠ '_' := by simpa [isPlaceIn] using hc
  rw [separated, isDigitIn_radix, hparts.1, if_neg (by simp), if_neg hparts.2]

/-- Where there are no underscores, none is out of place. -/
theorem separated_of_not_mem {cs : List Char} {last : Last} (h : '_' ∉ cs)
    (hlast : last ≠ .underscore) : separated hex last cs = true := by
  induction cs generalizing last with
  | nil => simpa [separated] using hlast
  | cons c cs ih =>
      obtain ⟨hc, hcs⟩ := not_or.mp (mt List.mem_cons.mpr h)
      by_cases hd : isDigitIn (radix hex) c = true
      · rw [separated_digit hd]
        exact ih hcs (by simp)
      · have hother : isPlaceIn (radix hex) c = false := by simp [isPlaceIn, hd, Ne.symm hc]
        rw [separated_other hother, ih hcs (by simp)]
        simpa using hlast

/-- A run of digits and underscores in which the underscores are in place is empty, or a run of the
grammar, or such a run after an underscore that follows a digit. -/
theorem run_of_separated {text rest : List Char} {last : Last}
    (htext : ∀ c ∈ text, isPlaceIn (radix hex) c = true)
    (hrest : ∀ c ∈ rest.head?, isPlaceIn (radix hex) c = false)
    (h : separated hex last (text ++ rest) = true) :
    separated hex .other rest = true ∧ (text = [] ∧ last ≠ .underscore ∨
      Run (radix hex) text (text.filter (· ≠ '_')) ∨
      ∃ tail, text = '_' :: tail ∧ last = .digit ∧
        Run (radix hex) tail (tail.filter (· ≠ '_'))) := by
  -- the state after the last place is what decides about the rest, so the state is generalised
  induction text generalizing last with
  | nil =>
      rw [List.nil_append] at h
      cases rest with
      | nil => exact ⟨by simp [separated], .inl ⟨rfl, by simpa [separated] using h⟩⟩
      | cons c rest =>
          have hc := hrest c (by simp)
          rw [separated_other hc] at h ⊢
          obtain ⟨hlast, h⟩ := Bool.and_eq_true_iff.mp h
          exact ⟨by simp [h], .inl ⟨rfl, by simpa using hlast⟩⟩
  | cons c text ih =>
      have htail : ∀ c ∈ text, isPlaceIn (radix hex) c = true := fun x hx => htext x (by simp [hx])
      by_cases hd : isDigitIn (radix hex) c = true
      · have hne : c ≠ '_' := by
          rintro rfl
          simp [isDigitIn_underscore] at hd
        rw [List.cons_append, separated_digit hd] at h
        obtain ⟨hend, htext' | hrun | ⟨tail, htext', -, hrun⟩⟩ := ih htail h
        · refine ⟨hend, .inr (.inl ?_)⟩
          simpa [htext'.1, hne] using Run.last hd
        · refine ⟨hend, .inr (.inl ?_)⟩
          simpa [hne] using Run.next hd hrun
        · refine ⟨hend, .inr (.inl ?_)⟩
          simpa [htext', hne] using Run.apart hd hrun
      · obtain rfl : c = '_' := by simpa [isPlaceIn, hd] using htext c (by simp)
        rw [List.cons_append, separated_underscore] at h
        obtain ⟨hlast, h⟩ := Bool.and_eq_true_iff.mp h
        obtain ⟨hend, htext' | hrun | ⟨tail, -, hdigit, -⟩⟩ := ih htail h
        · exact absurd rfl htext'.2
        · exact ⟨hend, .inr (.inr ⟨text, rfl, by simpa using hlast, hrun⟩)⟩
        · cases hdigit

end Separated

/-! ## What is read is written so -/

/-- A run of decimal digits is a decimal run, whatever the base it was found in. -/
theorem Run.ten {base : Nat} {text digits : List Char} (h : Run base text digits)
    (htext : ∀ c ∈ text, isDigit c = true ∨ c = '_') (hbase : isDigitIn base '_' = false) :
    Run 10 text digits := by
  have hten : ∀ c, isDigitIn base c = true → isDigit c = true ∨ c = '_' →
      isDigitIn 10 c = true := by
    rintro c hc (hd | rfl)
    · exact isDigitIn_ten hd
    · rw [hbase] at hc
      cases hc
  induction h with
  | last hc => exact .last (hten _ hc (htext _ (by simp)))
  | next hc _ ih =>
      exact .next (hten _ hc (htext _ (by simp))) (ih fun x hx => htext x (by simp [hx]))
  | apart hc _ ih =>
      exact .apart (hten _ hc (htext _ (by simp))) (ih fun x hx => htext x (by simp [hx]))

/-- To drop underscores is to keep digits. -/
theorem filter_isDigit {text : List Char} (h : ∀ c ∈ text, isDigit c = true ∨ c = '_') :
    text.filter isDigit = text.filter (· ≠ '_') := by
  refine List.filter_congr fun c hc => ?_
  rcases h c hc with hd | rfl
  · have hne : c ≠ '_' := by
      rintro rfl
      exact absurd hd (by decide)
    simp [hd, hne]
  · decide

theorem isPlaceIn_sign {c : Char} (hc : c = '+' ∨ c = '-') (hex : Bool) :
    isPlaceIn (radix hex) c = false := by
  rcases hc with rfl | rfl <;> cases hex <;> decide

/-- The digits of an exponent that is read in a text with its underscores in place are a run. -/
theorem run_of_exponent {hex : Bool} {c : Char} {body : List Char}
    (hbody : ∀ x ∈ c :: body, isDigit x = true ∨ x = '_')
    (hsep : separated hex .other (c :: body) = true) :
    Run 10 (c :: body) ((c :: body).filter isDigit) := by
  have hplaces : ∀ x ∈ c :: body, isPlaceIn (radix hex) x = true := by
    intro x hx
    rcases hbody x hx with hd | rfl
    · simp [isPlaceIn, isDigitIn_of_isDigit hd hex]
    · simp [isPlaceIn]
  have hsep' : separated hex .other ((c :: body) ++ []) = true := by simpa using hsep
  rw [filter_isDigit hbody]
  obtain ⟨-, ⟨hnil, -⟩ | hrun | ⟨tail, -, hlast, -⟩⟩ := run_of_separated hplaces (by simp) hsep'
  · cases hnil
  · exact hrun.ten hbody (isDigitIn_underscore hex)
  · cases hlast

/-- The digits of an exponent whose sign is known. -/
def unsignedExponent (negative : Bool) : List Char → Option Int
  | [] => none
  | c :: rest =>
    if isDigit c && (c :: rest).all (fun c => isDigit c || c = '_') then
      let e : Int := exponentValue ((c :: rest).filter isDigit)
      some (if negative then -e else e)
    else none

theorem readExponent_plus (rest : List Char) :
    readExponent ('+' :: rest) = unsignedExponent false rest := by
  cases rest <;> rfl

theorem readExponent_minus (rest : List Char) :
    readExponent ('-' :: rest) = unsignedExponent true rest := by
  cases rest <;> rfl

theorem readExponent_plain {c : Char} (rest : List Char) (hplus : c ≠ '+') (hminus : c ≠ '-') :
    readExponent (c :: rest) = unsignedExponent false (c :: rest) := by
  unfold readExponent
  split
  next negative body heq =>
    split at heq
    · next heq' => exact absurd (List.cons.inj heq').1 hplus
    · next heq' => exact absurd (List.cons.inj heq').1 hminus
    · obtain ⟨rfl, rfl⟩ := Prod.mk.inj heq
      rfl

/-- What is read as the digits of an exponent is a run of digits with its value. -/
theorem exists_run_of_unsignedExponent {hex negative : Bool} {body : List Char} {e : Int}
    (hread : unsignedExponent negative body = some e) (hsep : separated hex .other body = true) :
    ∃ digits, Run 10 body digits ∧
      e = if negative then -(exponentValue digits : Int) else exponentValue digits := by
  cases body with
  | nil => cases hread
  | cons c body =>
      rw [unsignedExponent] at hread
      split at hread
      · next hguard =>
          simp only [Bool.and_eq_true, List.all_eq_true, Bool.or_eq_true, decide_eq_true_eq]
            at hguard
          exact ⟨_, run_of_exponent hguard.2 hsep, (Option.some.inj hread).symm⟩
      · cases hread

/-- What is read as an exponent is one. -/
theorem exponent_of_read {hex : Bool} {m : Char} {cs : List Char} {e : Int} {mark : Char}
    (hm : lower m = mark) (hread : readExponent cs = some e)
    (hsep : separated hex .other cs = true) : Exponent mark (m :: cs) e := by
  have hsign : ∀ c body, c = '+' ∨ c = '-' → separated hex .other (c :: body) = true →
      separated hex .other body = true := by
    intro c body hc h
    rw [separated_other (isPlaceIn_sign hc hex)] at h
    exact (Bool.and_eq_true_iff.mp h).2
  cases cs with
  | nil => cases hread
  | cons c rest =>
      by_cases hplus : c = '+'
      · subst hplus
        rw [readExponent_plus] at hread
        obtain ⟨digits, hrun, rfl⟩ :=
          exists_run_of_unsignedExponent hread (hsign '+' rest (.inl rfl) hsep)
        exact .plus hm hrun
      by_cases hminus : c = '-'
      · subst hminus
        rw [readExponent_minus] at hread
        obtain ⟨digits, hrun, rfl⟩ :=
          exists_run_of_unsignedExponent hread (hsign '-' rest (.inr rfl) hsep)
        exact .minus hm hrun
      · rw [readExponent_plain rest hplus hminus] at hread
        obtain ⟨digits, hrun, rfl⟩ := exists_run_of_unsignedExponent hread hsep
        exact .plain hm hrun

/-- The end of a number, of which the mantissa is known. -/
def Fractional.close (hex : Bool) (digits : List Char) (n : Nat) : List Char → Option Fractional
  | [] => if hex then none else some ⟨hex, digits, n, 0⟩
  | mark :: rest =>
    if lower mark = (if hex then 'p' else 'e') then
      (readExponent rest).map fun e => ⟨hex, digits, n, e⟩
    else none

section Body

variable {hex : Bool} {whole fraction rest : List Char}
  (hwhole : ∀ c ∈ whole, isPlaceIn (radix hex) c = true)
  (hfraction : ∀ c ∈ fraction, isPlaceIn (radix hex) c = true)
  (hrest : ∀ c ∈ rest.head?, isPlaceIn (radix hex) c = false)

/-- The reader takes the characters that may stand among digits. -/
theorem place_eq (hex : Bool) :
    (fun c => isDigitIn (if hex then 16 else 10) c || decide (c = '_')) =
      isPlaceIn (radix hex) := by
  cases hex <;> rfl

include hwhole hrest

/-- A number without a point is read as digits and an end. -/
theorem readBody_of_whole (hpoint : rest.head? ≠ some '.') :
    Fractional.readBody hex (whole ++ rest) =
      if (whole.filter (· ≠ '_')).isEmpty then none
      else Fractional.close hex (whole.filter (· ≠ '_')) 0 rest := by
  have hspan : (whole ++ rest).span (isPlaceIn (radix hex)) = (whole, rest) :=
    span_digits hwhole hrest
  unfold Fractional.readBody
  simp only [place_eq, hspan]
  cases rest with
  | nil => simp [Fractional.close]
  | cons c rest =>
      have hc : c ≠ '.' := by simpa using hpoint
      split
      · next heq => exact absurd (List.cons.inj heq).1 hc
      · simp [Fractional.close]

include hfraction

/-- A number with a point is read as the digits on both sides and an end. -/
theorem readBody_of_point :
    Fractional.readBody hex (whole ++ '.' :: (fraction ++ rest)) =
      if (whole.filter (· ≠ '_') ++ fraction.filter (· ≠ '_')).isEmpty then none
      else Fractional.close hex (whole.filter (· ≠ '_') ++ fraction.filter (· ≠ '_'))
        (fraction.filter (· ≠ '_')).length rest := by
  have hdot : isPlaceIn (radix hex) '.' = false := by cases hex <;> decide
  have hspan : (whole ++ '.' :: (fraction ++ rest)).span (isPlaceIn (radix hex)) =
      (whole, '.' :: (fraction ++ rest)) := span_digits hwhole (by simpa using hdot)
  have hspan' : (fraction ++ rest).span (isPlaceIn (radix hex)) = (fraction, rest) :=
    span_digits hfraction hrest
  unfold Fractional.readBody
  simp only [place_eq, hspan, hspan']
  cases rest <;> rfl

end Body

/-- Every text begins with places, perhaps none, up to what is no place. -/
theorem exists_places (hex : Bool) (cs : List Char) :
    ∃ whole rest, (∀ c ∈ whole, isPlaceIn (radix hex) c = true) ∧
      (∀ c ∈ rest.head?, isPlaceIn (radix hex) c = false) ∧ cs = whole ++ rest := by
  refine ⟨cs.takeWhile (isPlaceIn (radix hex)), cs.dropWhile (isPlaceIn (radix hex)), ?_, ?_, ?_⟩
  · exact fun c hc => List.all_eq_true.mp List.all_takeWhile c hc
  · intro c hc
    have h := List.head?_dropWhile_not (isPlaceIn (radix hex)) cs
    rw [Option.mem_def.mp hc] at h
    simpa using h
  · exact List.takeWhile_append_dropWhile.symm

/-- What may follow a mantissa: an exponent, or nothing if the number is decimal. -/
def Closes (hex : Bool) (exp : List Char) (e : Int) : Prop :=
  hex = false ∧ exp = [] ∧ e = 0 ∨ Exponent (if hex then 'p' else 'e') exp e

/-- What is read as the end of a number follows the grammar. -/
theorem closes_of_close {hex : Bool} {digits rest : List Char} {n : Nat} {r : Fractional}
    (hrest : ∀ c ∈ rest.head?, isPlaceIn (radix hex) c = false)
    (hsep : separated hex .other rest = true) (h : Fractional.close hex digits n rest = some r) :
    ∃ e, r = ⟨hex, digits, n, e⟩ ∧ Closes hex rest e := by
  cases rest with
  | nil =>
      cases hex with
      | true => cases h
      | false => exact ⟨0, (Option.some.inj h).symm, .inl ⟨rfl, rfl, rfl⟩⟩
  | cons m rest =>
      rw [separated_other (hrest m (by simp))] at hsep
      rw [Fractional.close] at h
      by_cases hm : lower m = if hex then 'p' else 'e'
      · rw [if_pos hm] at h
        obtain ⟨e, hread, rfl⟩ := Option.map_eq_some_iff.mp h
        exact ⟨e, rfl, .inr (exponent_of_read hm hread (Bool.and_eq_true_iff.mp hsep).2)⟩
      · rw [if_neg hm] at h
        cases h

/-- A run begins with a digit. -/
theorem Run.head {base : Nat} {text digits : List Char} (h : Run base text digits) :
    ∃ c rest, text = c :: rest ∧ isDigitIn base c = true := by
  cases h with
  | last hc => exact ⟨_, _, rfl, hc⟩
  | next hc => exact ⟨_, _, rfl, hc⟩
  | apart hc => exact ⟨_, _, rfl, hc⟩

/-- A run does not begin with a point. -/
theorem Run.head?_ne_point {hex : Bool} {text digits : List Char} (h : Run (radix hex) text digits)
    (rest : List Char) : (text ++ rest).head? ≠ some '.' := by
  obtain ⟨c, tail, rfl, hc⟩ := h.head
  rw [List.cons_append, List.head?_cons]
  intro heq
  obtain rfl := Option.some.inj heq
  have hdot : isDigitIn (radix hex) '.' = false := by cases hex <;> decide
  rw [hdot] at hc
  cases hc

/-- What is read as the body of a number is a mantissa and an exponent. Only after a digit may an
underscore come first. -/
theorem mantissa_of_readBody {hex : Bool} {last : Last} {cs : List Char} {r : Fractional}
    (hread : Fractional.readBody hex cs = some r) (hsep : separated hex last cs = true) :
    ∃ front text digits exp n e, cs = front ++ (text ++ exp) ∧
      (front = [] ∨ front = ['_'] ∧ last = .digit ∧ text.head? ≠ some '.') ∧
      Mantissa (radix hex) text digits n ∧ Closes hex exp e ∧ r = ⟨hex, digits, n, e⟩ := by
  obtain ⟨whole, rest, hwhole, hrest, rfl⟩ := exists_places hex cs
  obtain ⟨hend, hcases⟩ := run_of_separated hwhole hrest hsep
  -- the whole digits are missing, or a run, perhaps after an underscore
  have hfront : whole = [] ∨ ∃ front text, whole = front ++ text ∧
      (front = [] ∨ front = ['_'] ∧ last = .digit) ∧
      Run (radix hex) text (whole.filter (· ≠ '_')) := by
    rcases hcases with ⟨hnil, -⟩ | hrun | ⟨tail, rfl, hlast, hrun⟩
    · exact .inl hnil
    · exact .inr ⟨[], whole, rfl, .inl rfl, hrun⟩
    · exact .inr ⟨['_'], tail, rfl, .inr ⟨rfl, hlast⟩, by simpa using hrun⟩
  by_cases hpoint : rest.head? = some '.'
  · obtain ⟨rest, rfl⟩ := List.head?_eq_some_iff.mp hpoint
    obtain ⟨fraction, rest, hfraction, hrest', rfl⟩ := exists_places hex rest
    rw [separated_other (hrest '.' (by simp))] at hend
    obtain ⟨hend, hcases'⟩ :=
      run_of_separated hfraction hrest' (Bool.and_eq_true_iff.mp hend).2
    rw [readBody_of_point hwhole hfraction hrest'] at hread
    split at hread
    · cases hread
    next hdigits =>
      obtain ⟨e, rfl, hcloses⟩ := closes_of_close hrest' hend hread
      rcases hfront with rfl | ⟨front, text, rfl, hfront, hrun⟩ <;>
        rcases hcases' with ⟨rfl, -⟩ | hrun' | ⟨tail, -, hlast, -⟩
      · exact absurd rfl hdigits
      · exact ⟨[], _, _, rest, _, e, by simp, .inl rfl, .fraction hrun', hcloses, rfl⟩
      · cases hlast
      · refine ⟨front, _, _, rest, _, e, ?_, ?_, .point hrun, hcloses, by simp⟩
        · simp
        · exact hfront.imp_right fun h => ⟨h.1, h.2, hrun.head?_ne_point _⟩
      · refine ⟨front, _, _, rest, _, e, ?_, ?_, .places hrun hrun', hcloses, rfl⟩
        · simp
        · exact hfront.imp_right fun h => ⟨h.1, h.2, hrun.head?_ne_point _⟩
      · cases hlast
  · rw [readBody_of_whole hwhole hrest hpoint] at hread
    split at hread
    · cases hread
    next hdigits =>
      obtain ⟨e, rfl, hcloses⟩ := closes_of_close hrest hend hread
      rcases hfront with rfl | ⟨front, text, rfl, hfront, hrun⟩
      · exact absurd rfl hdigits
      · refine ⟨front, text, _, rest, _, e, by simp, ?_, .whole hrun, hcloses, rfl⟩
        exact hfront.imp_right fun h => ⟨h.1, h.2, by simpa using hrun.head?_ne_point []⟩

/-- A base mark is not a place of a decimal number. -/
theorem isPlaceIn_ten_of_mark {m : Char} (h : lower m ∈ ['b', 'o', 'x', 'e', 'p']) :
    isPlaceIn 10 m = false ∧ m ≠ '.' := by
  constructor
  · by_contra hplace
    rw [Bool.not_eq_false] at hplace
    have hcases : isDigitIn 10 m = true ∨ m = '_' := by simpa [isPlaceIn] using hplace
    rcases hcases with hd | rfl
    · have hbounds := toNat_of_isDigit (isDigit_of_isDigitIn_ten hd)
      have hall : ∀ n, n ≤ 57 → 48 ≤ n → lower (Char.ofNat n) ∉ ['b', 'o', 'x', 'e', 'p'] := by
        decide
      refine hall m.toNat hbounds.2 hbounds.1 ?_
      rwa [Char.ofNat_toNat]
    · exact absurd h (by decide)
  · rintro rfl
    exact absurd h (by decide)

/-- A decimal number has no base mark. -/
theorem lower_not_mem_of_readBody {m : Char} {rest : List Char} {r : Fractional}
    (hread : Fractional.readBody false ('0' :: m :: rest) = some r) :
    lower m ∉ ['b', 'o', 'x'] := by
  intro hm
  have hmark : lower m ∈ ['b', 'o', 'x', 'e', 'p'] := List.mem_append_left ['e', 'p'] hm
  obtain ⟨hplace, hpoint⟩ := isPlaceIn_ten_of_mark hmark
  have hzero : ∀ c ∈ ['0'], isPlaceIn (radix false) c = true := forall_mem_of_all (by decide)
  have hrest : ∀ c ∈ (m :: rest).head?, isPlaceIn (radix false) c = false := by
    intro c hc
    obtain rfl := Option.some.inj hc
    exact hplace
  have hbody := readBody_of_whole hzero hrest (by simpa using hpoint)
  have hne : lower m ≠ 'e' := by
    intro heq
    rw [heq] at hm
    exact absurd hm (by decide)
  rw [← List.singleton_append, hbody] at hread
  simp [Fractional.close, hne] at hread

/-- The underscores of a text that was read are in place. -/
theorem separated_of_underscoresOk {hex : Bool} {last : Last} {cs tail : List Char}
    (hlast : last ≠ .underscore) (htail : tail <:+ cs)
    (h : underscoresOk cs = true → separated hex last tail = true)
    (hread : (!cs.contains '_' || underscoresOk cs) = true) : separated hex last tail = true := by
  by_cases hmem : '_' ∈ cs
  · exact h (by simpa [hmem] using hread)
  · exact separated_of_not_mem (fun hm => hmem (htail.subset hm)) hlast

/-- What is read as a number is written as one. -/
theorem Fractional.writes_of_read {cs : List Char} {r : Fractional}
    (hread : Fractional.read cs = some r) : Writes cs r := by
  unfold Fractional.read at hread
  obtain ⟨hparts, hguard⟩ := Option.filter_eq_some_iff.mp hread
  have hdecimal : Fractional.readBody false cs = some r → Writes cs r := by
    intro hbody
    -- the check of underscores knows more base marks than the reader, but those are not read
    have hsep : separated false .start cs = true := by
      refine separated_of_underscoresOk (by simp) List.suffix_rfl (fun hok => ?_) hguard
      unfold underscoresOk at hok
      split at hok
      · next m rest =>
          have hm := lower_not_mem_of_readBody hbody
          simp only [List.mem_cons, List.not_mem_nil, or_false] at hm
          rwa [if_neg hm] at hok
      · exact hok
    obtain ⟨front, text, digits, exp, n, e, rfl, hfront, hm, hcloses, rfl⟩ :=
      mantissa_of_readBody hbody hsep
    rcases hfront with rfl | ⟨-, hlast, -⟩
    · rw [List.nil_append]
      rcases hcloses with ⟨-, rfl, rfl⟩ | hexp
      · rw [List.append_nil]
        exact .plain hm
      · exact .scaled hm hexp
    · cases hlast
  split at hparts
  · next m d rest =>
      split at hparts
      · next hx =>
          have hsep : separated true .digit (d :: rest) = true := by
            refine separated_of_underscoresOk (by simp) ?_ (fun hok => ?_) hguard
            · exact (List.suffix_cons m _).trans (List.suffix_cons '0' _)
            · simpa [underscoresOk, hx] using hok
          obtain ⟨front, text, digits, exp, n, e, hcs, hfront, hm, hcloses, rfl⟩ :=
            mantissa_of_readBody hparts hsep
          have hexp : Exponent 'p' exp e := hcloses.resolve_left fun h => by cases h.1
          rw [hcs]
          rcases hfront with rfl | ⟨rfl, -, hhead⟩
          · rw [List.nil_append]
            exact .hex hx hm hexp
          · rw [List.singleton_append]
            exact .hexSeparated hx hm hhead hexp
      · exact hdecimal hparts
  · exact hdecimal hparts

/-! ## What is written is read so -/

section Runs

variable {hex : Bool} {text digits : List Char}

/-- A run has only characters that may stand among digits. -/
theorem Run.place (h : Run (radix hex) text digits) :
    ∀ c ∈ text, isPlaceIn (radix hex) c = true := by
  induction h with
  | last hc => simp [isPlaceIn, hc]
  | next hc _ ih => simpa [isPlaceIn, hc] using ih
  | apart hc _ ih => simpa [isPlaceIn, hc] using ih

/-- Without its underscores a run is its digits. -/
theorem Run.filter_eq (h : Run (radix hex) text digits) : text.filter (· ≠ '_') = digits := by
  have hne : ∀ c, isDigitIn (radix hex) c = true → c ≠ '_' := by
    rintro c hc rfl
    rw [isDigitIn_underscore] at hc
    cases hc
  induction h with
  | last hc => simp [hne _ hc]
  | next hc _ ih => simpa [hne _ hc] using ih
  | apart hc _ ih => simpa [hne _ hc] using ih

/-- A run has a digit. -/
theorem Run.digits_ne_nil (h : Run (radix hex) text digits) : digits ≠ [] := by
  cases h <;> simp

/-- After a run, underscores are right if they are after a digit. -/
theorem Run.separated_append (h : Run (radix hex) text digits) (last : Last) (rest : List Char) :
    separated hex last (text ++ rest) = separated hex .digit rest := by
  induction h generalizing last with
  | last hc => rw [List.singleton_append, separated_digit hc]
  | next hc _ ih => rw [List.cons_append, separated_digit hc, ih]
  | apart hc _ ih =>
      rw [List.cons_append, separated_digit hc, List.cons_append, separated_underscore, ih]
      rfl

/-- A run of decimal digits is one in both bases. -/
theorem Run.of_ten (h : Run 10 text digits) (hex : Bool) : Run (radix hex) text digits := by
  have hdigit : ∀ c, isDigitIn 10 c = true → isDigitIn (radix hex) c = true := fun c hc =>
    isDigitIn_of_isDigit (isDigit_of_isDigitIn_ten hc) hex
  induction h with
  | last hc => exact .last (hdigit _ hc)
  | next hc _ ih => exact .next (hdigit _ hc) ih
  | apart hc _ ih => exact .apart (hdigit _ hc) ih

/-- A run of decimal digits is read as an exponent. -/
theorem unsignedExponent_of_run (h : Run 10 text digits) (negative : Bool) :
    unsignedExponent negative text =
      some (if negative then -(exponentValue digits : Int) else exponentValue digits) := by
  have hdigits : ∀ c ∈ text, isDigit c = true ∨ c = '_' := by
    intro c hc
    have hplace : isDigitIn 10 c = true ∨ c = '_' := by
      simpa [isPlaceIn, radix] using Run.place (h.of_ten false) c hc
    exact hplace.imp_left isDigit_of_isDigitIn_ten
  have hfilter : text.filter isDigit = digits := by
    rw [filter_isDigit hdigits, (h.of_ten false).filter_eq]
  obtain ⟨c, rest, rfl, hc⟩ := h.head
  have hall : (c :: rest).all (fun c => isDigit c || c = '_') = true := by
    simpa [List.all_eq_true] using hdigits
  rw [unsignedExponent, isDigit_of_isDigitIn_ten hc, hall, hfilter]
  rfl

/-- The digits after the mark and the sign of an exponent are read. -/
theorem readExponent_of_run (h : Run 10 text digits) :
    readExponent text = some (exponentValue digits : Int) ∧
      readExponent ('+' :: text) = some (exponentValue digits : Int) ∧
      readExponent ('-' :: text) = some (-(exponentValue digits : Int)) := by
  refine ⟨?_, ?_, ?_⟩
  · obtain ⟨c, rest, rfl, hc⟩ := h.head
    have hd := isDigit_of_isDigitIn_ten hc
    have hsign : ∀ sign, isDigit sign = false → c ≠ sign := by
      rintro sign hsign rfl
      rw [hsign] at hd
      cases hd
    rw [readExponent_plain rest (hsign '+' (by decide)) (hsign '-' (by decide))]
    exact unsignedExponent_of_run h false
  · rw [readExponent_plus]
    exact unsignedExponent_of_run h false
  · rw [readExponent_minus]
    exact unsignedExponent_of_run h true

end Runs

/-- The mark of an exponent ends the places before it. -/
theorem isPlaceIn_mark {hex : Bool} {m : Char} (h : lower m = if hex then 'p' else 'e') :
    isPlaceIn (radix hex) m = false ∧ m ≠ '.' := by
  have hten := isPlaceIn_ten_of_mark (m := m) (by cases hex <;> simp_all)
  cases hex with
  | false => exact hten
  | true =>
      refine ⟨?_, hten.2⟩
      have hlower : lower m = 'p' := h
      have hparts : isDigitIn 10 m = false ∧ m ≠ '_' := by simpa [isPlaceIn] using hten.1
      have hdigit : isDigit m = false := by
        by_contra hd
        rw [isDigitIn_ten (by simpa using hd)] at hparts
        cases hparts.1
      have hsixteen : isDigitIn 16 m = false := by
        simp [isDigitIn, digitValue?, hdigit, hlower]
      simp [isPlaceIn, radix, hsixteen, hparts.2]

section Closing

variable {hex : Bool} {exp : List Char} {e : Int}

/-- What the grammar allows at the end of a number is read. -/
theorem Closes.close (h : Closes hex exp e) (digits : List Char) (n : Nat) :
    Fractional.close hex digits n exp = some ⟨hex, digits, n, e⟩ := by
  rcases h with ⟨rfl, rfl, rfl⟩ | hexp
  · rfl
  · cases hexp with
    | plain hm hrun => rw [Fractional.close, if_pos hm, (readExponent_of_run hrun).1]; rfl
    | plus hm hrun => rw [Fractional.close, if_pos hm, (readExponent_of_run hrun).2.1]; rfl
    | minus hm hrun => rw [Fractional.close, if_pos hm, (readExponent_of_run hrun).2.2]; rfl

/-- The end of a number begins neither with a place nor with a point. -/
theorem Closes.head (h : Closes hex exp e) :
    (∀ c ∈ exp.head?, isPlaceIn (radix hex) c = false) ∧ exp.head? ≠ some '.' := by
  rcases h with ⟨rfl, rfl, rfl⟩ | hexp
  · simp
  · have hmark : ∃ m rest, exp = m :: rest ∧ lower m = if hex then 'p' else 'e' := by
      cases hexp <;> exact ⟨_, _, rfl, by assumption⟩
    obtain ⟨m, rest, rfl, hm⟩ := hmark
    simpa using isPlaceIn_mark hm

/-- The underscores of an exponent are in place, whatever stands before it. -/
theorem Closes.inPlace (h : Closes hex exp e) {last : Last} (hlast : last ≠ .underscore) :
    separated hex last exp = true := by
  have hrun : ∀ text digits, Run 10 text digits → separated hex .other text = true := by
    intro text digits hrun
    have happend := (hrun.of_ten hex).separated_append .other []
    rw [List.append_nil] at happend
    rw [happend]
    rfl
  have hsign : ∀ c text, c = '+' ∨ c = '-' → separated hex .other text = true →
      separated hex .other (c :: text) = true := by
    intro c text hc htext
    rw [separated_other (isPlaceIn_sign hc hex), htext]
    rfl
  have hmark : ∀ m text, lower m = (if hex then 'p' else 'e') →
      separated hex .other text = true → separated hex last (m :: text) = true := by
    intro m text hm htext
    rw [separated_other (isPlaceIn_mark hm).1, htext]
    simpa using hlast
  rcases h with ⟨rfl, rfl, rfl⟩ | hexp
  · simpa [separated] using hlast
  · cases hexp with
    | plain hm h => exact hmark _ _ hm (hrun _ _ h)
    | plus hm h => exact hmark _ _ hm (hsign '+' _ (.inl rfl) (hrun _ _ h))
    | minus hm h => exact hmark _ _ hm (hsign '-' _ (.inr rfl) (hrun _ _ h))

end Closing

/-- A mantissa and an exponent are read, also after an underscore. -/
theorem readBody_of_mantissa {hex : Bool} {front text digits exp : List Char} {n : Nat} {e : Int}
    (hfront : front = [] ∨ front = ['_']) (hm : Mantissa (radix hex) text digits n)
    (hcloses : Closes hex exp e) :
    Fractional.readBody hex (front ++ (text ++ exp)) = some ⟨hex, digits, n, e⟩ := by
  have hplace : ∀ c ∈ front, isPlaceIn (radix hex) c = true := by
    rcases hfront with rfl | rfl <;> simp [isPlaceIn]
  have hfilter : front.filter (· ≠ '_') = [] := by
    rcases hfront with rfl | rfl <;> rfl
  have hjoin : ∀ {text digits : List Char}, Run (radix hex) text digits →
      (∀ c ∈ front ++ text, isPlaceIn (radix hex) c = true) ∧
        (front ++ text).filter (· ≠ '_') = digits := by
    intro text digits hrun
    refine ⟨fun c hc => (List.mem_append.mp hc).elim (hplace c) (hrun.place c), ?_⟩
    rw [List.filter_append, hfilter, hrun.filter_eq, List.nil_append]
  have hnone : ∀ c ∈ ([] : List Char), isPlaceIn (radix hex) c = true := by simp
  cases hm with
  | whole h =>
      rw [← List.append_assoc, readBody_of_whole (hjoin h).1 hcloses.head.1 hcloses.head.2,
        (hjoin h).2, if_neg (by simpa using h.digits_ne_nil), hcloses.close]
  | point h =>
      have hbody := readBody_of_point (hjoin h).1 hnone hcloses.head.1
      rw [(hjoin h).2, List.filter_nil, List.append_nil, if_neg (by simpa using h.digits_ne_nil),
        hcloses.close] at hbody
      simpa using hbody
  | places h h' =>
      have hbody := readBody_of_point (hjoin h).1 h'.place hcloses.head.1
      rw [(hjoin h).2, h'.filter_eq, if_neg (by simp [h.digits_ne_nil]), hcloses.close] at hbody
      simpa using hbody
  | fraction h' =>
      have hbody := readBody_of_point hplace h'.place hcloses.head.1
      rw [hfilter, h'.filter_eq, List.nil_append, if_neg (by simpa using h'.digits_ne_nil),
        hcloses.close] at hbody
      simpa using hbody

/-- The underscores of a mantissa are in place, also after an underscore if it begins with a
digit. -/
theorem separated_of_mantissa {hex : Bool} {text digits exp : List Char} {n : Nat} {e : Int}
    {last : Last} (hlast : last ≠ .underscore ∨ text.head? ≠ some '.')
    (hm : Mantissa (radix hex) text digits n) (hcloses : Closes hex exp e) :
    separated hex last (text ++ exp) = true := by
  have hdot : isPlaceIn (radix hex) '.' = false := by cases hex <;> decide
  have hpoint : ∀ {last : Last} {rest : List Char}, last ≠ .underscore →
      separated hex .other rest = true → separated hex last ('.' :: rest) = true := by
    intro last rest hlast hrest
    rw [separated_other hdot, hrest]
    simpa using hlast
  cases hm with
  | whole h => rw [h.separated_append, hcloses.inPlace (by simp)]
  | point h =>
      rw [List.append_assoc, h.separated_append]
      exact hpoint (by simp) (hcloses.inPlace (by simp))
  | places h h' =>
      rw [List.append_assoc, h.separated_append, List.cons_append]
      refine hpoint (by simp) ?_
      rw [h'.separated_append, hcloses.inPlace (by simp)]
  | fraction h' =>
      rw [List.cons_append]
      refine hpoint (hlast.resolve_right (by simp)) ?_
      rw [h'.separated_append, hcloses.inPlace (by simp)]

/-- What is written as a number is read as one. -/
theorem Fractional.read_of_writes {cs : List Char} {r : Fractional} (h : Writes cs r) :
    Fractional.read cs = some r := by
  have hdecimal : ∀ {cs : List Char} {r : Fractional}, Fractional.readBody false cs = some r →
      separated false .start cs = true → Fractional.read cs = some r := by
    intro cs r hbody hsep
    have hok : underscoresOk cs = true := by
      unfold underscoresOk
      split
      · next m rest =>
          have hm := lower_not_mem_of_readBody hbody
          simp only [List.mem_cons, List.not_mem_nil, or_false] at hm
          rwa [if_neg hm]
      · exact hsep
    unfold Fractional.read
    rw [hok]
    split
    · next m d rest =>
        have hm := lower_not_mem_of_readBody hbody
        rw [if_neg (fun hx => hm (by simp [hx])), hbody]
        simp
    · rw [hbody]
      simp
  have hhex : ∀ {x : Char} {body : List Char} {r : Fractional}, lower x = 'x' →
      Fractional.readBody true body = some r → separated true .digit body = true →
      Fractional.read ('0' :: x :: body) = some r := by
    intro x body r hx hbody hsep
    cases body with
    | nil => cases hbody
    | cons d rest =>
        have hok : underscoresOk ('0' :: x :: d :: rest) = true := by simp [underscoresOk, hx, hsep]
        simp [Fractional.read, hx, hbody, hok]
  cases h with
  | @plain text digits n hm =>
      have hm' : Mantissa (radix false) cs digits n := hm
      have hcloses : Closes false [] 0 := .inl ⟨rfl, rfl, rfl⟩
      have hbody := readBody_of_mantissa (.inl rfl) hm' hcloses
      have hsep := separated_of_mantissa (.inl (show Last.start ≠ .underscore by simp)) hm' hcloses
      rw [List.nil_append, List.append_nil] at hbody
      rw [List.append_nil] at hsep
      exact hdecimal hbody hsep
  | @scaled text digits exp n e hm he =>
      have hm' : Mantissa (radix false) text digits n := hm
      have hcloses : Closes false exp e := .inr he
      exact hdecimal (readBody_of_mantissa (.inl rfl) hm' hcloses)
        (separated_of_mantissa (.inl (by simp)) hm' hcloses)
  | @hex x text digits exp n e hx hm he =>
      have hm' : Mantissa (radix true) text digits n := hm
      have hcloses : Closes true exp e := .inr he
      exact hhex hx (readBody_of_mantissa (.inl rfl) hm' hcloses)
        (separated_of_mantissa (.inl (by simp)) hm' hcloses)
  | @hexSeparated x text digits exp n e hx hm hhead he =>
      have hm' : Mantissa (radix true) text digits n := hm
      have hcloses : Closes true exp e := .inr he
      refine hhex hx (readBody_of_mantissa (.inr rfl) hm' hcloses) ?_
      rw [separated_underscore, separated_of_mantissa (.inr hhead) hm' hcloses]
      rfl

/-- The reader accepts the numbers of the grammar and no others. -/
theorem Fractional.read_eq_some_iff {cs : List Char} {r : Fractional} :
    Fractional.read cs = some r ↔ Writes cs r :=
  ⟨writes_of_read, read_of_writes⟩

/-! ## The characters of a number -/

/-- What a number is written with. -/
def isNumeralPart (c : Char) : Bool :=
  isPlaceIn 16 c || ['.', '+', '-'].contains c || ['x', 'p', 'e'].contains (lower c)

/-- A run is written with the characters of numbers. -/
theorem Run.parts {hex : Bool} {text digits : List Char} (h : Run (radix hex) text digits) :
    ∀ c ∈ text, isNumeralPart c = true := by
  intro c hc
  have hplace := h.place c hc
  cases hex with
  | true => exact Bool.or_eq_true_iff.mpr (.inl (Bool.or_eq_true_iff.mpr (.inl hplace)))
  | false =>
      have hcases : isDigitIn 10 c = true ∨ c = '_' := by simpa [isPlaceIn, radix] using hplace
      rcases hcases with hd | rfl
      · have hd' := isDigitIn_of_isDigit (isDigit_of_isDigitIn_ten hd) true
        simp only [radix] at hd'
        simp [isNumeralPart, isPlaceIn, hd']
      · decide

/-- A mantissa is written with the characters of numbers. -/
theorem Mantissa.parts {hex : Bool} {text digits : List Char} {n : Nat}
    (h : Mantissa (radix hex) text digits n) : ∀ c ∈ text, isNumeralPart c = true := by
  have hpoint : isNumeralPart '.' = true := by decide
  cases h with
  | whole h => exact h.parts
  | point h => simpa [or_imp, forall_and, hpoint] using h.parts
  | places h h' => simpa [or_imp, forall_and, hpoint] using And.intro h.parts h'.parts
  | fraction h' => simpa [or_imp, forall_and, hpoint] using h'.parts

/-- An exponent is written with the characters of numbers. -/
theorem Exponent.parts {mark : Char} {exp : List Char} {e : Int} (hmark : mark ∈ ['x', 'p', 'e'])
    (h : Exponent mark exp e) : ∀ c ∈ exp, isNumeralPart c = true := by
  have hm : ∀ {m : Char}, lower m = mark → isNumeralPart m = true := by
    rintro m rfl
    exact Bool.or_eq_true_iff.mpr (.inr (List.contains_iff_mem.mpr hmark))
  have hplus : isNumeralPart '+' = true := by decide
  have hminus : isNumeralPart '-' = true := by decide
  cases h with
  | plain hlower h => simpa [hm hlower] using (h.of_ten false).parts
  | plus hlower h => simpa [hm hlower, hplus] using (h.of_ten false).parts
  | minus hlower h => simpa [hm hlower, hminus] using (h.of_ten false).parts

/-- A fractional number is written with the characters of numbers. -/
theorem Fractional.Writes.parts {cs : List Char} {r : Fractional} (h : Writes cs r) :
    ∀ c ∈ cs, isNumeralPart c = true := by
  have hzero : isNumeralPart '0' = true := by decide
  have hunderscore : isNumeralPart '_' = true := by decide
  have hx : ∀ {x : Char}, lower x = 'x' → isNumeralPart x = true := fun {x} h => by
    simp [isNumeralPart, h]
  cases h with
  | @plain _ digits n hm =>
      have hm' : Mantissa (radix false) cs digits n := hm
      exact hm'.parts
  | @scaled text digits _ n _ hm he =>
      have hm' : Mantissa (radix false) text digits n := hm
      simpa [or_imp, forall_and] using And.intro hm'.parts (he.parts (by simp))
  | @hex _ text digits _ n _ hlower hm he =>
      have hm' : Mantissa (radix true) text digits n := hm
      simpa [or_imp, forall_and, hzero, hx hlower] using And.intro hm'.parts (he.parts (by simp))
  | @hexSeparated _ text digits _ n _ hlower hm _ he =>
      have hm' : Mantissa (radix true) text digits n := hm
      simpa [or_imp, forall_and, hzero, hunderscore, hx hlower] using
        And.intro hm'.parts (he.parts (by simp))

end Straightline.Numeral
