import Straightline.Binary32

/-!
# The shortest decimal that reads back

Every decimal between the two midpoints around a value reads back as that value; a midpoint itself
does so exactly when the pattern is even. `shortest` looks for the coarsest power of ten with a
multiple in that interval. Of two multiples it takes the nearer one, and the even one if they are
equally near. A multiple found on the coarsest grid has no trailing zero, so its digits are the
fewest possible.

All comparisons are cross-multiplied: values are in units of 2⁻¹⁵⁰, so that midpoints are integers.
-/

set_option autoImplicit false

namespace Straightline

/-- A positive decimal, `digits · 10 ^ exponent`. -/
structure Decimal where
  digits : Nat
  exponent : Int
deriving DecidableEq, Repr

namespace Decimal

/-- The interval of reals that round to the pattern `mag`, in units of 2⁻¹⁵⁰: the midpoints to both
neighbours, the value itself, and whether the midpoints belong to it. -/
structure Interval where
  low : Nat
  value : Nat
  high : Nat
  closed : Bool
deriving DecidableEq, Repr

/-- The rounding interval of a positive finite pattern. -/
def intervalOf (mag : Nat) : Interval where
  low := Binary32.units (mag - 1) + Binary32.units mag
  value := 2 * Binary32.units mag
  high := Binary32.units mag + Binary32.units (mag + 1)
  closed := mag % 2 = 0

/-- Whether `a / b` lies in the interval. -/
def Interval.contains (i : Interval) (a b : Nat) : Bool :=
  if i.closed then i.low * b ≤ a && a ≤ i.high * b else i.low * b < a && a < i.high * b

/-- The multiple of `10 ^ exponent` in the interval that is nearest to the value, if there is one:
one of the two multiples around the value. -/
def Interval.multiple? (i : Interval) (exponent : Int) : Option Nat :=
  let scale := Nat.pow 10 (-exponent).toNat
  let step := Nat.pow 10 exponent.toNat <<< 150
  let value := i.value * scale
  let below := value / step
  let above := below + 1
  match i.contains (below * step) scale, i.contains (above * step) scale with
  | true, true =>
    if 2 * value < (below + above) * step then some below
    else if (below + above) * step < 2 * value then some above
    else if below % 2 = 0 then some below else some above
  | true, false => some below
  | false, true => some above
  | false, false => none

/-- The decimal exponents worth trying, coarsest first: no finite value reaches 10³⁹, and a grid of
10⁻⁵⁴ is finer than every interval. -/
def exponents : List Int := (List.range 93).map fun (k : Nat) => 38 - (k : Int)

/-- The shortest decimal that reads back as the positive finite pattern `mag`, the nearest of those
to its value. -/
def shortest (mag : Nat) : Decimal :=
  let i := intervalOf mag
  (exponents.findSome? fun e => (i.multiple? e).map fun d => ⟨d, e⟩).getD ⟨0, 0⟩

end Decimal

end Straightline
