/-!
# Single-precision bit patterns

A floating-point literal is carried as its 32 bits, so everything here is exact arithmetic on
natural numbers; no machine floating point is involved.

* `units` reads a non-negative pattern as a multiple of the smallest positive value, 2⁻¹⁴⁹.
* `roundRatio` goes the other way: the pattern nearest to a ratio, ties to the even pattern.
* `reciprocal` is `1/x` on all patterns, special ones included, in terms of the two.

Consecutive patterns of one sign are consecutive values, which is why a rounded significand can
simply be added to the pattern where its binade begins, a carry into the next binade included.
-/

set_option autoImplicit false

namespace Straightline.Binary32

/-- The pattern of `+∞`; the patterns above it, up to the sign bit, are not numbers. -/
def infinity : Nat := 0x7f800000

/-- The one pattern that stands for every value that is not a number. -/
def quietNaN : UInt32 := 0x7fc00000

/-- The pattern of `1.0`. -/
def one : UInt32 := 0x3f800000

/-- The highest bit is set exactly on negative patterns, the negative zero included. -/
def isNegative (bits : UInt32) : Bool := 0x80000000 ≤ bits

/-- The pattern without its sign. -/
def magnitude (bits : UInt32) : Nat := bits.toNat % 0x80000000

/-- A pattern is not a number when its magnitude lies above infinity. -/
def isNaN (bits : UInt32) : Bool := infinity < magnitude bits

/-- All patterns that are not numbers become `quietNaN`; every other pattern is kept. -/
def canonical (bits : UInt32) : UInt32 := if isNaN bits then quietNaN else bits

/-- The value of a finite magnitude, in units of 2⁻¹⁴⁹. At `infinity` it continues the grid: it is
the value that would follow the largest finite one. -/
def units (mag : Nat) : Nat :=
  let binade := mag / 0x800000
  let fraction := mag % 0x800000
  if binade = 0 then fraction else (fraction + 0x800000) <<< (binade - 1)

/-- The integer nearest to `a / b`, the even one of two that are equally near. -/
def divNearestEven (a b : Nat) : Nat :=
  let q := a / b
  let r := a % b
  if 2 * r < b then q else if b < 2 * r then q + 1 else q + q % 2

/-- The magnitude nearest to `num / den`, ties to the even pattern. Ratios of at least half a step
above the largest finite value give `infinity`. -/
def roundRatio (num den : Nat) : Nat :=
  let scaled := num <<< 149
  let binade := (scaled / den).log2 - 23
  min (binade * 0x800000 + divNearestEven scaled (den <<< binade)) infinity

/-- Puts a sign on a magnitude. -/
def withSign (negative : Bool) (mag : Nat) : UInt32 :=
  UInt32.ofNat (if negative then mag + 0x80000000 else mag)

/-- `1/x` rounded once: zeros and infinities trade places and keep their sign, and what is not a
number stays so, in its canonical pattern. -/
def reciprocal (bits : UInt32) : UInt32 :=
  let mag := magnitude bits
  if infinity < mag then quietNaN
  else if mag = infinity then withSign (isNegative bits) 0
  else if mag = 0 then withSign (isNegative bits) infinity
  else withSign (isNegative bits) (roundRatio (1 <<< 149) (units mag))

end Straightline.Binary32
