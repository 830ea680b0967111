import Mathlib.Tactic.Linarith
import Mathlib.Tactic.Ring
import Straightline.Decimal.Shortest

/-!
# Rounding to the nearest pattern

Every ratio lies between the values of two consecutive patterns, and rounding takes the nearer one,
the even one if they are equally near (`Binary32.exists_roundRatio`). The interval of a pattern
therefore consists of exactly the ratios that round to it (`Binary32.roundRatio_of_contains`), and
the shortest decimal is one of them (`Decimal.shortest_mem`).
-/

set_option autoImplicit false

namespace Straightline

namespace Binary32

/-! ## Fields as powers of two -/

theorem magnitude_eq (bits : UInt32) : magnitude bits = bits.toNat % 2 ^ 31 := rfl

/-- The value of a pattern in the smallest units: its fraction, with the hidden bit unless it is
subnormal, scaled by its exponent. -/
theorem units_eq (mag : Nat) : units mag = if mag / 2 ^ 23 = 0 then mag % 2 ^ 23
    else (mag % 2 ^ 23 + 2 ^ 23) * 2 ^ (mag / 2 ^ 23 - 1) := by
  unfold units
  dsimp only
  rw [Nat.shiftLeft_eq]
  rfl

/-- Rounding scales the ratio to the smallest units and divides to the nearest significand. -/
theorem roundRatio_eq (num den : Nat) : roundRatio num den =
    let scaled := num * 2 ^ 149
    let binade := (scaled / den).log2 - 23
    min (binade * 2 ^ 23 + divNearestEven scaled (den * 2 ^ binade)) infinity := by
  unfold roundRatio
  dsimp only
  rw [Nat.shiftLeft_eq, Nat.shiftLeft_eq]
  rfl

/-! ## The values of patterns -/

/-- A significand `q` of a binade has the value that the pattern beginning there suggests, also
where it carries over into the next binade. -/
theorem units_add (b q : Nat) (hq : q ≤ 2 ^ 24) (hb : b = 0 ∨ 2 ^ 23 ≤ q) :
    units (b * 2 ^ 23 + q) = q * 2 ^ b := by
  rw [units_eq]
  rcases Nat.lt_or_ge q (2 ^ 23) with hlt | hge
  · obtain rfl : b = 0 := by omega
    have hdiv : (0 * 2 ^ 23 + q) / 2 ^ 23 = 0 := by omega
    have hmod : (0 * 2 ^ 23 + q) % 2 ^ 23 = q := by omega
    rw [hdiv, hmod, if_pos rfl]
    simp
  · rcases Nat.lt_or_ge q (2 ^ 24) with hlt | hge'
    · have hdiv : (b * 2 ^ 23 + q) / 2 ^ 23 = b + 1 := by omega
      have hmod : (b * 2 ^ 23 + q) % 2 ^ 23 = q - 2 ^ 23 := by omega
      rw [hdiv, hmod, if_neg (by omega), Nat.sub_add_cancel hge, Nat.add_sub_cancel]
    · obtain rfl : q = 2 ^ 24 := by omega
      have hdiv : (b * 2 ^ 23 + 2 ^ 24) / 2 ^ 23 = b + 2 := by omega
      have hmod : (b * 2 ^ 23 + 2 ^ 24) % 2 ^ 23 = 0 := by omega
      have hsub : b + 2 - 1 = b + 1 := by omega
      rw [hdiv, hmod, if_neg (by omega), hsub, Nat.zero_add]
      ring

/-- Consecutive patterns have increasing values. -/
theorem units_lt_succ (n : Nat) : units n < units (n + 1) := by
  rcases Nat.lt_or_ge n (2 ^ 23) with hlt | hge
  · have h₁ := units_add 0 n (by omega) (.inl rfl)
    have h₂ := units_add 0 (n + 1) (by omega) (.inl rfl)
    simp only [Nat.zero_mul, Nat.zero_add, Nat.pow_zero, Nat.mul_one] at h₁ h₂
    omega
  · -- the binade of `n`, as the significand that `n` stands for
    obtain ⟨b, q, hq, hn⟩ : ∃ b q, (2 ^ 23 ≤ q ∧ q < 2 ^ 24) ∧ n = b * 2 ^ 23 + q :=
      ⟨n / 2 ^ 23 - 1, n % 2 ^ 23 + 2 ^ 23, by omega, by omega⟩
    have h₁ := units_add b q (by omega) (.inr hq.1)
    have h₂ := units_add b (q + 1) (by omega) (.inr (by omega))
    have hpos : 0 < 2 ^ b := Nat.two_pow_pos b
    rw [hn, Nat.add_assoc, h₁, h₂, Nat.add_one_mul]
    omega

/-- Larger patterns have larger values. -/
theorem units_strictMono {m n : Nat} (h : m < n) : units m < units n := by
  induction n with
  | zero => omega
  | succ n ih =>
      have hn := units_lt_succ n
      rcases Nat.lt_or_ge m n with hlt | hge
      · exact Nat.lt_trans (ih hlt) hn
      · obtain rfl : m = n := by omega
        exact hn

/-- Patterns that are not smaller have values that are not smaller. -/
theorem units_mono {m n : Nat} (h : m ≤ n) : units m ≤ units n := by
  rcases Nat.lt_or_ge m n with hlt | hge
  · exact Nat.le_of_lt (units_strictMono hlt)
  · obtain rfl : m = n := by omega
    exact Nat.le_refl _

/-! ## Rounding a ratio -/

/-- The significand of a ratio in its binade. -/
theorem significand_bounds (n d : Nat) :
    let b := (n / d).log2 - 23
    let q := n / (d * 2 ^ b)
    q < 2 ^ 24 ∧ (b = 0 ∨ 2 ^ 23 ≤ q) := by
  intro b q
  have hq : q = n / d / 2 ^ b := (Nat.div_div_eq_div_mul n d (2 ^ b)).symm
  have hlt : n / d < 2 ^ ((n / d).log2 + 1) := Nat.lt_log2_self
  constructor
  · rw [hq, Nat.div_lt_iff_lt_mul (Nat.two_pow_pos b), ← Nat.pow_add]
    exact Nat.lt_of_lt_of_le hlt (Nat.pow_le_pow_right (by decide) (by omega))
  · rcases Nat.lt_or_ge (n / d).log2 24 with hsmall | hlarge
    · exact .inl (by omega)
    · have hne : n / d ≠ 0 := by
        intro h
        rw [h] at hlarge
        simp at hlarge
      have hle : 2 ^ (n / d).log2 ≤ n / d := Nat.log2_self_le hne
      refine .inr ?_
      rw [hq, Nat.le_div_iff_mul_le (Nat.two_pow_pos b), ← Nat.pow_add]
      have : 23 + b = (n / d).log2 := by omega
      rw [this]
      exact hle

/-- A quotient is rounded down, up, or to the even one where both are as near. -/
theorem divNearestEven_eq (a b : Nat) :
    divNearestEven a b =
      if 2 * a < (2 * (a / b) + 1) * b then a / b
      else if (2 * (a / b) + 1) * b < 2 * a then a / b + 1 else a / b + a / b % 2 := by
  unfold divNearestEven
  dsimp only
  have hdiv := Nat.div_add_mod a b
  have hexp : (2 * (a / b) + 1) * b = 2 * (b * (a / b)) + b := by ring
  rw [hexp]
  have h₁ : 2 * (a % b) < b ↔ 2 * a < 2 * (b * (a / b)) + b := by omega
  have h₂ : b < 2 * (a % b) ↔ 2 * (b * (a / b)) + b < 2 * a := by omega
  simp only [h₁, h₂]

/-- A ratio lies between two consecutive patterns; rounding takes the nearer one, and of two that
are equally near the even one. -/
theorem exists_roundRatio (num den : Nat) (hd : 0 < den) :
    ∃ r, units r * den ≤ num * 2 ^ 149 ∧ num * 2 ^ 149 < units (r + 1) * den ∧
      roundRatio num den = min
        (if 2 * (num * 2 ^ 149) < (units r + units (r + 1)) * den then r
          else if (units r + units (r + 1)) * den < 2 * (num * 2 ^ 149) then r + 1
          else r + r % 2) infinity := by
  rw [roundRatio_eq]
  dsimp only
  set n := num * 2 ^ 149
  obtain ⟨hq, hb⟩ := significand_bounds n den
  set b := (n / den).log2 - 23
  set q := n / (den * 2 ^ b) with hqdef
  have hpos : 0 < den * 2 ^ b := Nat.mul_pos hd (Nat.two_pow_pos b)
  have hr : units (b * 2 ^ 23 + q) = q * 2 ^ b := units_add b q (by omega) hb
  have hr' : units (b * 2 ^ 23 + q + 1) = (q + 1) * 2 ^ b := by
    rw [Nat.add_assoc]
    exact units_add b (q + 1) (by omega) (by omega)
  refine ⟨b * 2 ^ 23 + q, ?_, ?_, ?_⟩
  · rw [hr, Nat.mul_assoc, Nat.mul_comm (2 ^ b) den]
    exact Nat.div_mul_le_self n (den * 2 ^ b)
  · rw [hr', Nat.mul_assoc, Nat.mul_comm (2 ^ b) den, Nat.mul_comm]
    exact Nat.lt_mul_div_succ n hpos
  · have hmid : (q * 2 ^ b + (q + 1) * 2 ^ b) * den = (2 * q + 1) * (den * 2 ^ b) := by ring
    have heven : (b * 2 ^ 23 + q) % 2 = q % 2 := by omega
    rw [divNearestEven_eq n _, ← hqdef, hr, hr', hmid, heven]
    congr 1
    split
    · rfl
    · split <;> omega

/-- The ratios in the interval of a pattern round to that pattern. -/
theorem roundRatio_of_contains {mag num den : Nat} (hpos : 0 < mag) (hfin : mag < infinity)
    (hd : 0 < den) (h : (Decimal.intervalOf mag).contains (num * 2 ^ 150) den = true) :
    roundRatio num den = mag := by
  obtain ⟨r, hlow, hhigh, hround⟩ := exists_roundRatio num den hd
  -- the ends of the interval, which belong to it only if the pattern is even
  have hends : (units (mag - 1) + units mag) * den ≤ 2 * (num * 2 ^ 149) ∧
      2 * (num * 2 ^ 149) ≤ (units mag + units (mag + 1)) * den ∧
      (mag % 2 ≠ 0 → (units (mag - 1) + units mag) * den < 2 * (num * 2 ^ 149) ∧
        2 * (num * 2 ^ 149) < (units mag + units (mag + 1)) * den) := by
    have htwice : num * 2 ^ 150 = 2 * (num * 2 ^ 149) := by ring
    rw [htwice] at h
    unfold Decimal.Interval.contains Decimal.intervalOf at h
    dsimp only at h
    by_cases heven : mag % 2 = 0
    · simp only [heven, decide_true, if_true, Bool.and_eq_true, decide_eq_true_eq] at h
      exact ⟨h.1, h.2, fun hne => absurd heven hne⟩
    · simp only [heven, decide_false, Bool.false_eq_true, if_false, Bool.and_eq_true,
        decide_eq_true_eq] at h
      exact ⟨Nat.le_of_lt h.1, Nat.le_of_lt h.2, fun _ => h⟩
  obtain ⟨hl, hh, hodd⟩ := hends
  generalize num * 2 ^ 149 = n at hlow hhigh hround hl hh hodd
  have hmono : ∀ {a b : Nat}, a ≤ b → units a * den ≤ units b * den := fun hab =>
    Nat.mul_le_mul_right den (units_mono hab)
  have hstrict : ∀ {a b : Nat}, a < b → units a * den < units b * den := fun hab =>
    Nat.mul_lt_mul_of_pos_right (units_strictMono hab) hd
  have hstep := hstrict (Nat.lt_succ_self mag)
  have hback : units (mag - 1) * den < units mag * den := hstrict (by omega)
  simp only [Nat.add_mul] at hl hh hodd hround
  -- the ratio lies right below or right above the pattern
  have hr : r = mag ∨ r + 1 = mag := by
    have hle : r ≤ mag := by
      by_contra hcon
      have := hmono (show mag + 1 ≤ r by omega)
      rw [Nat.succ_eq_add_one] at hstep
      omega
    have hge : mag ≤ r + 1 := by
      by_contra hcon
      have := hmono (show r + 1 ≤ mag - 1 by omega)
      omega
    omega
  suffices hnear : (if 2 * n < units r * den + units (r + 1) * den then r
      else if units r * den + units (r + 1) * den < 2 * n then r + 1 else r + r % 2) = mag by
    rw [hround, hnear]
    exact Nat.min_eq_left (Nat.le_of_lt hfin)
  clear hfin hround
  have htie : 2 * n = units r * den + units (r + 1) * den → mag % 2 = 0 := by
    intro heq
    by_contra hne
    have := hodd hne
    rcases hr with rfl | rfl
    · omega
    · simp only [Nat.add_sub_cancel] at this
      omega
  rcases hr with rfl | rfl
  · split
    · rfl
    · split
      · omega
      · have := htie (by omega)
        omega
  · simp only [Nat.add_sub_cancel] at hl
    split
    · omega
    · split
      · rfl
      · have := htie (by omega)
        omega

theorem roundRatio_zero {den : Nat} (hd : 0 < den) : roundRatio 0 den = 0 := by
  obtain ⟨r, hlow, -, hround⟩ := exists_roundRatio 0 den hd
  rw [Nat.zero_mul] at hlow hround
  have hr : r = 0 := by
    by_contra hne
    have hpos : 0 < units r :=
      Nat.lt_of_le_of_lt (Nat.zero_le _) (units_strictMono (m := 0) (by omega))
    have := Nat.mul_pos hpos hd
    omega
  subst hr
  have hpos : 0 < (units 0 + units (0 + 1)) * den := by
    have := units_lt_succ 0
    exact Nat.mul_pos (by omega) hd
  rw [hround, Nat.mul_zero, if_pos hpos]
  exact Nat.zero_min _

end Binary32

namespace Decimal

open Binary32

/-- The ratio that a decimal stands for. -/
def ratio (d : Decimal) : Nat × Nat :=
  (d.digits * 10 ^ d.exponent.toNat, 10 ^ (-d.exponent).toNat)

/-- A multiple that was found lies in the interval. -/
theorem contains_of_multiple? {i : Interval} {e : Int} {d : Nat} (h : i.multiple? e = some d) :
    i.contains ((⟨d, e⟩ : Decimal).ratio.1 * 2 ^ 150) (⟨d, e⟩ : Decimal).ratio.2 = true := by
  have hassoc : (⟨d, e⟩ : Decimal).ratio.1 * 2 ^ 150 = d * (10 ^ e.toNat * 2 ^ 150) := by
    simp only [ratio]
    ring
  rw [hassoc]
  unfold Interval.multiple? at h
  simp only [Nat.shiftLeft_eq, Nat.pow_eq] at h
  split at h
  · rename_i hbelow habove
    split at h
    · rw [Option.some.injEq] at h
      exact h ▸ hbelow
    · split at h
      · rw [Option.some.injEq] at h
        exact h ▸ habove
      · split at h
        · rw [Option.some.injEq] at h
          exact h ▸ hbelow
        · rw [Option.some.injEq] at h
          exact h ▸ habove
  · rename_i hbelow _
    rw [Option.some.injEq] at h
    exact h ▸ hbelow
  · rename_i _ habove
    rw [Option.some.injEq] at h
    exact h ▸ habove
  · simp at h

/-- The finest grid has a multiple in every interval: its step is less than one unit, and every
interval reaches a unit below the value. -/
theorem multiple?_finest {mag : Nat} (hpos : 0 < mag) :
    ∃ d, (intervalOf mag).multiple? (-54) = some d := by
  have hback : units (mag - 1) < units mag := units_strictMono (by omega)
  have hstep : units mag < units (mag + 1) := units_lt_succ mag
  have hgrid : 2 ^ 150 ≤ 10 ^ 54 := by norm_num
  have hscale : 0 < 10 ^ 54 := by norm_num
  have hfound : (intervalOf mag).contains
      ((intervalOf mag).value * 10 ^ 54 / 2 ^ 150 * 2 ^ 150) (10 ^ 54) = true := by
    have hle := Nat.div_mul_le_self ((intervalOf mag).value * 10 ^ 54) (2 ^ 150)
    have hlt := Nat.lt_mul_div_succ ((intervalOf mag).value * 10 ^ 54) (Nat.two_pow_pos 150)
    generalize (intervalOf mag).value * 10 ^ 54 / 2 ^ 150 = k at hle hlt ⊢
    unfold intervalOf at hle hlt ⊢
    unfold Interval.contains
    dsimp only at hle hlt ⊢
    generalize 2 ^ 150 = s at *
    generalize 10 ^ 54 = t at *
    have hmul : s * (k + 1) = k * s + s := by ring
    have hbelow : (units (mag - 1) + units mag + 1) * t ≤ 2 * units mag * t :=
      Nat.mul_le_mul_right t (by omega)
    have habove : (2 * units mag + 1) * t ≤ (units mag + units (mag + 1)) * t :=
      Nat.mul_le_mul_right t (by omega)
    rw [Nat.add_mul _ 1 t] at hbelow
    rw [Nat.add_mul _ 1 t] at habove
    split
    · simp only [Bool.and_eq_true, decide_eq_true_eq]
      omega
    · simp only [Bool.and_eq_true, decide_eq_true_eq]
      omega
  unfold Interval.multiple?
  have hstep' : Nat.pow 10 (-54 : Int).toNat <<< 150 = 2 ^ 150 := by simp [Nat.shiftLeft_eq]
  have hscale' : Nat.pow 10 (- -54 : Int).toNat = 10 ^ 54 := rfl
  simp only [hstep', hscale', hfound]
  split
  · split
    · exact ⟨_, rfl⟩
    · split
      · exact ⟨_, rfl⟩
      · split <;> exact ⟨_, rfl⟩
  · exact ⟨_, rfl⟩
  · exact ⟨_, rfl⟩
  · rename_i h _
    simp at h

/-- The shortest decimal of a positive finite pattern is positive and lies in the pattern's
interval. -/
theorem shortest_mem {mag : Nat} (hpos : 0 < mag) :
    0 < (shortest mag).digits ∧ (intervalOf mag).contains ((shortest mag).ratio.1 * 2 ^ 150)
      (shortest mag).ratio.2 = true ∧
      -54 ≤ (shortest mag).exponent ∧ (shortest mag).exponent ≤ 38 := by
  -- some grid of the list has a multiple, the finest one at the latest
  obtain ⟨d, hd⟩ := multiple?_finest hpos
  have hsome : ∃ x, (exponents.findSome? fun e =>
      ((intervalOf mag).multiple? e).map fun d => (⟨d, e⟩ : Decimal)) = some x := by
    rw [← Option.isSome_iff_exists, List.isSome_findSome?]
    rw [List.any_eq_true]
    exact ⟨-54, by decide, by simp [hd]⟩
  obtain ⟨x, hx⟩ := hsome
  have heq : shortest mag = x := by
    unfold shortest
    dsimp only
    rw [hx]
    rfl
  obtain ⟨e, he, hfound⟩ := List.exists_of_findSome?_eq_some hx
  obtain ⟨d', hd', rfl⟩ := Option.map_eq_some_iff.mp hfound
  rw [heq]
  have hcontains := contains_of_multiple? hd'
  have hrange : -54 ≤ e ∧ e ≤ 38 := by
    obtain ⟨k, hk, rfl⟩ := List.mem_map.mp he
    have := List.mem_range.mp hk
    omega
  refine ⟨?_, hcontains, hrange⟩
  dsimp only
  by_contra hzero
  -- zero lies in no interval of a positive pattern
  obtain rfl : d' = 0 := by omega
  have hunits : 0 < units mag := by
    have := units_strictMono hpos
    omega
  have hden : 0 < 10 ^ (-e).toNat := Nat.pow_pos (by decide)
  unfold Interval.contains intervalOf ratio at hcontains
  dsimp only at hcontains
  have hlow : 0 < (units (mag - 1) + units mag) * 10 ^ (-e).toNat := Nat.mul_pos (by omega) hden
  split at hcontains
  · simp only [Nat.zero_mul, Bool.and_eq_true, decide_eq_true_eq] at hcontains
    omega
  · simp only [Nat.zero_mul, Bool.and_eq_true, decide_eq_true_eq] at hcontains
    omega

/-- Whether a ratio lies in an interval depends on its value only. -/
theorem contains_congr (i : Interval) {a b a' b' : Nat} (hb : 0 < b) (hb' : 0 < b')
    (h : a' * b = a * b') : i.contains a' b' = i.contains a b := by
  have hle : ∀ x, x * b' ≤ a' ↔ x * b ≤ a := by
    intro x
    calc x * b' ≤ a' ↔ x * b' * b ≤ a' * b := (Nat.mul_le_mul_right_iff hb).symm
      _ ↔ x * b * b' ≤ a * b' := by rw [h, Nat.mul_right_comm]
      _ ↔ x * b ≤ a := Nat.mul_le_mul_right_iff hb'
  have hge : ∀ x, a' ≤ x * b' ↔ a ≤ x * b := by
    intro x
    calc a' ≤ x * b' ↔ a' * b ≤ x * b' * b := (Nat.mul_le_mul_right_iff hb).symm
      _ ↔ a * b' ≤ x * b * b' := by rw [h, Nat.mul_right_comm x b b']
      _ ↔ a ≤ x * b := Nat.mul_le_mul_right_iff hb'
  have hlt : ∀ x, x * b' < a' ↔ x * b < a := by
    intro x
    rw [← Nat.not_le, hge, Nat.not_le]
  have hgt : ∀ x, a' < x * b' ↔ a < x * b := by
    intro x
    rw [← Nat.not_le, hle, Nat.not_le]
  simp only [Interval.contains, hle, hge, hlt, hgt]

theorem units_infinity : units infinity = 2 ^ 127 * 2 ^ 150 := by
  have h : infinity = 254 * 2 ^ 23 + 2 ^ 23 := by norm_num [infinity]
  have hbinade : 2 ^ 254 = 2 ^ 104 * 2 ^ 150 := by norm_num
  have hfield : 2 ^ 127 = 2 ^ 23 * 2 ^ 104 := by norm_num
  rw [h, units_add 254 (2 ^ 23) (by norm_num) (.inr (Nat.le_refl _)), hbinade, hfield,
    Nat.mul_assoc]

/-- The shortest decimal of a finite pattern has few digits. -/
theorem digits_shortest_lt {mag : Nat} (hpos : 0 < mag) (hfin : mag < infinity) :
    (shortest mag).digits < 10 ^ 100 := by
  obtain ⟨-, hmem, hlow, -⟩ := shortest_mem hpos
  have hhigh : (shortest mag).ratio.1 * 2 ^ 150 ≤
      (units mag + units (mag + 1)) * (shortest mag).ratio.2 := by
    unfold Interval.contains intervalOf at hmem
    dsimp only at hmem
    split at hmem
    · simp only [Bool.and_eq_true, decide_eq_true_eq] at hmem
      exact hmem.2
    · simp only [Bool.and_eq_true, decide_eq_true_eq] at hmem
      exact Nat.le_of_lt hmem.2
  have hsum : units mag + units (mag + 1) ≤ units infinity + units infinity :=
    Nat.add_le_add (units_mono (Nat.le_of_lt hfin)) (units_mono hfin)
  have hden : (shortest mag).ratio.2 ≤ 10 ^ 54 :=
    Nat.pow_le_pow_right (by decide) (by omega)
  have hnum : (shortest mag).digits ≤ (shortest mag).ratio.1 :=
    Nat.le_mul_of_pos_right _ (Nat.pow_pos (by decide))
  have hall : (shortest mag).digits * 2 ^ 150 < 10 ^ 100 * 2 ^ 150 :=
    calc (shortest mag).digits * 2 ^ 150
        ≤ (shortest mag).ratio.1 * 2 ^ 150 := Nat.mul_le_mul_right _ hnum
      _ ≤ (units mag + units (mag + 1)) * (shortest mag).ratio.2 := hhigh
      _ ≤ (units infinity + units infinity) * 10 ^ 54 := Nat.mul_le_mul hsum hden
      _ = (2 ^ 127 + 2 ^ 127) * 10 ^ 54 * 2 ^ 150 := by rw [units_infinity]; ring
      _ < 10 ^ 100 * 2 ^ 150 :=
          Nat.mul_lt_mul_of_pos_right (by norm_num) (Nat.two_pow_pos 150)
  exact Nat.lt_of_mul_lt_mul_right hall

end Decimal

end Straightline
