import Straightline.Decimal.Shortest

/-!
# How a floating-point literal is written

The shortest digits are written positionally while the exponent of the leading digit is at least -4
and below 6, and in exponent notation otherwise. A text that could be taken for an integer gets a
fraction `.0`, so integers and floats never share a spelling.
-/

set_option autoImplicit false

namespace Straightline.Decimal

/-- Where positional notation begins and ends, as exponents of the leading digit. -/
structure PositionalRange where
  lowest : Int
  below : Int

/-- Literals are positional from `0.0001` up to, not including, `1e+06`. -/
def literalRange : PositionalRange := ⟨-4, 6⟩

/-- The exponent of a number in exponent notation: a sign and at least two digits. -/
def exponentText (e : Int) : String :=
  let digits := Nat.repr e.natAbs
  (if e < 0 then "-" else "+") ++ (if digits.length < 2 then "0" ++ digits else digits)

/-- `d.ddde±xx`, without a point when there is a single digit. -/
def scientificText (digits : List Char) (lead : Int) : String :=
  let fraction := digits.drop 1
  String.ofList (digits.take 1 ++ (if fraction.isEmpty then [] else '.' :: fraction))
    ++ "e" ++ exponentText lead

/-- Positional notation of digits whose first one stands for a multiple of `10 ^ lead`. -/
def positionalText (digits : List Char) (lead : Int) : String :=
  if lead < 0 then
    String.ofList ('0' :: '.' :: (List.replicate (-lead - 1).toNat '0' ++ digits))
  else
    let whole := (lead + 1).toNat
    let fraction := digits.drop whole
    String.ofList (digits.take whole ++ List.replicate (whole - digits.length) '0'
      ++ (if fraction.isEmpty then [] else '.' :: fraction))

/-- The text of a positive decimal. -/
def text (d : Decimal) (range : PositionalRange) : String :=
  let digits := (Nat.repr d.digits).toList
  let lead := d.exponent + digits.length - 1
  if lead < range.lowest || range.below ≤ lead then scientificText digits lead
  else positionalText digits lead

/-- Marks a number as a float if nothing in its text does: a point, an exponent, or the letters of
the special values. -/
def markFloat (text : String) : String :=
  if text.toList.any fun c => c = '.' || c = 'e' || c = 'I' || c = 'N' then text else text ++ ".0"

/-- The text of any pattern. -/
def floatText (bits : UInt32) : String :=
  let mag := Binary32.magnitude bits
  let minus := if Binary32.isNegative bits then "-" else ""
  markFloat <|
    if Binary32.infinity < mag then "NaN"
    else if mag = Binary32.infinity then (if Binary32.isNegative bits then "-Inf" else "+Inf")
    else if mag = 0 then minus ++ "0"
    else minus ++ (shortest mag).text literalRange

end Straightline.Decimal
