import Straightline.Numeral.Digits

/-!
# Reading integers

Two readers: plain decimal literals, which must fit 32 bits, and the integers of flags and
environment variables, which may name their base (`0x`, `0o`, `0b`, or a leading `0` for octal),
may hold underscores, and must fit 64 bits.
-/

set_option autoImplicit false

namespace Straightline.Numeral

/-- A non-empty run of decimal digits whose value is below 2³¹. Leading zeros are fine. -/
def readInt32 (cs : List Char) : Option Nat :=
  let significant := cs.dropWhile (· = '0')
  if cs.isEmpty || !cs.all isDigit || 10 < significant.length then none
  else
    let n := digitsValue 10 significant
    if n < 0x80000000 then some n else none

/-- Why an integer was refused. -/
inductive IntegerError where
  | malformed
  | outOfRange
deriving DecidableEq, Repr

/-- The wording of a refusal. -/
def IntegerError.message : IntegerError → String
  | .malformed => "parse error"
  | .outOfRange => "value out of range"

/-- Reads digits of a base into an unsigned 64-bit number, ignoring underscores. The first
offending character decides the error. -/
def readDigits64 (base : Nat) : Nat → List Char → Except IntegerError Nat
  | n, [] => .ok n
  | n, c :: rest =>
    if c = '_' then readDigits64 base n rest
    else if isDigitIn base c then
      let next := n * base + (digitValue? c).getD 0
      if next < UInt64.size then readDigits64 base next rest else .error .outOfRange
    else .error .malformed

/-- Splits a number into its base and the digits after the base mark. A mark needs a digit or
underscore after it to count; otherwise a leading zero means octal. -/
def splitBase : List Char → Nat × List Char
  | '0' :: m :: d :: rest =>
    if lower m = 'b' then (2, d :: rest)
    else if lower m = 'o' then (8, d :: rest)
    else if lower m = 'x' then (16, d :: rest)
    else (8, m :: d :: rest)
  | '0' :: rest => (8, rest)
  | cs => (10, cs)

/-- An unsigned 64-bit integer in any base. -/
def readUnsigned64 (cs : List Char) : Except IntegerError Nat :=
  if cs.isEmpty then .error .malformed
  else
    let (base, digits) := splitBase cs
    match readDigits64 base 0 digits with
    | .error e => .error e
    | .ok n => if cs.contains '_' && !underscoresOk cs then .error .malformed else .ok n

/-- A signed 64-bit integer in any base. -/
def readSigned64 (cs : List Char) : Except IntegerError Int :=
  let (negative, body) := match cs with
    | '+' :: rest => (false, rest)
    | '-' :: rest => (true, rest)
    | _ => (false, cs)
  match readUnsigned64 body with
  | .error e => .error e
  | .ok n =>
    if negative then if n ≤ 0x8000000000000000 then .ok (-(n : Int)) else .error .outOfRange
    else if n < 0x8000000000000000 then .ok n else .error .outOfRange

end Straightline.Numeral
