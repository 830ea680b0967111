/-!
# Digits

What the readers of numbers share: the value of a digit in a base, the value of a digit sequence,
and the rule for underscores, which may stand only between two digits (a base mark such as `0x`
counts as a digit for that purpose).
-/

set_option autoImplicit false

namespace Straightline.Numeral

/-- The lower-case form of an ASCII letter; every other character is kept. -/
def lower (c : Char) : Char :=
  if 'A' ≤ c ∧ c ≤ 'Z' then Char.ofNat (c.toNat + 32) else c

/-- `0` to `9`. -/
def isDigit (c : Char) : Bool := '0' ≤ c && c ≤ '9'

/-- The value of a digit or letter, letters counting on from ten. -/
def digitValue? (c : Char) : Option Nat :=
  if isDigit c then some (c.toNat - '0'.toNat)
  else if 'a' ≤ lower c ∧ lower c ≤ 'z' then some ((lower c).toNat - 'a'.toNat + 10)
  else none

/-- Whether a character is a digit in the given base. -/
def isDigitIn (base : Nat) (c : Char) : Bool :=
  match digitValue? c with
  | some d => d < base
  | none => false

/-- The value of a sequence of digits, the most significant one first. Characters that are no
digits count as zero. -/
def digitsValue (base : Nat) (digits : List Char) : Nat :=
  digits.foldl (fun n c => n * base + (digitValue? c).getD 0) 0

/-- What the last character was, for placing underscores. -/
inductive Last where
  | start | digit | underscore | other
deriving DecidableEq, Repr

/-- Underscores follow a digit and are followed by one. -/
def separated (hex : Bool) : Last → List Char → Bool
  | last, [] => last ≠ .underscore
  | last, c :: rest =>
    if isDigitIn (if hex then 16 else 10) c then separated hex .digit rest
    else if c = '_' then last = .digit && separated hex .underscore rest
    else last ≠ .underscore && separated hex .other rest

/-- Whether every underscore of an unsigned number separates two digits. -/
def underscoresOk : List Char → Bool
  | '0' :: m :: rest =>
    if lower m = 'b' ∨ lower m = 'o' ∨ lower m = 'x' then separated (lower m = 'x') .digit rest
    else separated false .start ('0' :: m :: rest)
  | cs => separated false .start cs

end Straightline.Numeral
