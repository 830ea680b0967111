import Straightline.Binary32
import Straightline.Numeral.Digits

/-!
# Reading floating-point literals

An unsigned number is a run of digits with at most one point, then an exponent. After `0x` the
digits are hexadecimal and the exponent, marked `p`, counts powers of two and must be there;
otherwise the exponent, marked `e`, counts powers of ten and is optional. `Fractional.read` splits
the text, `Fractional.ratio` is the exact value, and `readBinary32` rounds it once. Values that
round beyond the largest finite one are refused; values that vanish are zero.
-/

set_option autoImplicit false

namespace Straightline.Numeral

/-- A number as it is written: its digits without the point, how many of them follow the point, and
the written exponent. -/
structure Fractional where
  hex : Bool
  digits : List Char
  places : Nat
  exponent : Int
deriving DecidableEq, Repr

/-- The digits of an exponent, of which only the first five count. -/
def exponentValue (digits : List Char) : Nat :=
  digits.foldl (fun e c => if e < 10000 then e * 10 + (digitValue? c).getD 0 else e) 0

/-- The exponent after its mark: an optional sign, a digit, more digits and underscores, and nothing
after them. -/
def readExponent (cs : List Char) : Option Int :=
  let (negative, body) := match cs with
    | '+' :: rest => (false, rest)
    | '-' :: rest => (true, rest)
    | _ => (false, cs)
  match body with
  | c :: _ =>
    if isDigit c && body.all (fun c => isDigit c || c = '_') then
      let e : Int := exponentValue (body.filter isDigit)
      some (if negative then -e else e)
    else none
  | [] => none

/-- Reads the digits and the exponent of a number whose base is known. -/
def Fractional.readBody (hex : Bool) (cs : List Char) : Option Fractional :=
  let isPlace (c : Char) : Bool := isDigitIn (if hex then 16 else 10) c || c = '_'
  let (whole, rest) := cs.span isPlace
  let (fraction, rest) := match rest with
    | '.' :: rest => rest.span isPlace
    | _ => ([], rest)
  let fraction := fraction.filter (· ≠ '_')
  let digits := whole.filter (· ≠ '_') ++ fraction
  if digits.isEmpty then none
  else match rest with
    | [] => if hex then none else some ⟨hex, digits, fraction.length, 0⟩
    | mark :: rest =>
      if lower mark = (if hex then 'p' else 'e') then
        (readExponent rest).map fun e => ⟨hex, digits, fraction.length, e⟩
      else none

/-- Splits an unsigned number into its parts. Underscores must separate digits. -/
def Fractional.read (cs : List Char) : Option Fractional :=
  let parts := match cs with
    | '0' :: m :: d :: rest =>
      if lower m = 'x' then Fractional.readBody true (d :: rest) else Fractional.readBody false cs
    | _ => Fractional.readBody false cs
  parts.filter fun _ => !cs.contains '_' || underscoresOk cs

/-- The exact value as a numerator and a denominator. -/
def Fractional.ratio (r : Fractional) : Nat × Nat :=
  let n := digitsValue (if r.hex then 16 else 10) r.digits
  let shift : Int := if r.hex then r.exponent - 4 * r.places else r.exponent - r.places
  let base := if r.hex then 2 else 10
  (n * Nat.pow base shift.toNat, Nat.pow base (-shift).toNat)

/-- The single-precision pattern nearest to an unsigned number, if it is finite. -/
def readBinary32 (cs : List Char) : Option UInt32 :=
  match Fractional.read cs with
  | none => none
  | some r =>
    let mag := Binary32.roundRatio r.ratio.1 r.ratio.2
    if mag < Binary32.infinity then some (UInt32.ofNat mag) else none

end Straightline.Numeral
