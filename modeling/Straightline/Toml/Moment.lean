import Straightline.Toml.Text

/-!
# Dates and times

A moment is a date, a time of day, or both with or without an offset from universal time. The
fields have a fixed number of digits. Months have as many days as in the calendar, a minute may
have a leap second, and a second any number of decimal places.
-/

set_option autoImplicit false

namespace Straightline.Toml

/-- What a moment tells. -/
inductive Moment where
  | offsetDateTime
  | localDateTime
  | localDate
  | localTime
deriving DecidableEq, Repr

namespace Moment

/-- A number of a fixed number of digits, in a range. -/
def field (places low high : Nat) (cs : List Char) : Reading Nat :=
  let digits := cs.take places
  let n := Numeral.digitsValue 10 digits
  if digits.length = places ∧ digits.all Numeral.isDigit ∧ low ≤ n ∧ n ≤ high then
    some (n, cs.drop places)
  else none

/-- Every fourth year is a leap year, but of the full centuries only every fourth. -/
def isLeapYear (year : Nat) : Bool := year % 4 = 0 && (year % 100 ≠ 0 || year % 400 = 0)

/-- The number of days of a month, counted from one. -/
def daysIn (year month : Nat) : Nat :=
  if month = 2 then if isLeapYear year then 29 else 28
  else if month = 4 ∨ month = 6 ∨ month = 9 ∨ month = 11 then 30
  else 31

/-- What is left after a date. -/
def date (cs : List Char) : Option (List Char) := do
  let (year, rest) ← field 4 0 9999 cs
  let (month, rest) ← field 2 1 12 (← expect '-' rest)
  let (_, rest) ← field 2 1 (daysIn year month) (← expect '-' rest)
  pure rest

/-- What is left after the decimal places of a second, if there are any. -/
def fraction : List Char → Option (List Char)
  | '.' :: d :: rest => if Numeral.isDigit d then some (rest.dropWhile Numeral.isDigit) else none
  | ['.'] => none
  | cs => some cs

/-- What is left after a time of day. -/
def time (cs : List Char) : Option (List Char) := do
  let (_, rest) ← field 2 0 23 cs
  let (_, rest) ← field 2 0 59 (← expect ':' rest)
  let (_, rest) ← field 2 0 60 (← expect ':' rest)
  fraction rest

/-- What is left after an offset from universal time. -/
def offset : List Char → Option (List Char)
  | [] => none
  | c :: rest =>
    if c = 'Z' ∨ c = 'z' then some rest
    else if c = '+' ∨ c = '-' then do
      let (_, rest) ← field 2 0 23 rest
      let (_, rest) ← field 2 0 59 (← expect ':' rest)
      pure rest
    else none

/-- What a text tells after its date. -/
def afterDate : List Char → Option Moment
  | [] => some localDate
  | c :: rest =>
    if c = 'T' ∨ c = 't' ∨ c = ' ' then
      match time rest with
      | none => none
      | some [] => some localDateTime
      | some rest => if offset rest = some [] then some offsetDateTime else none
    else none

/-- What a text tells, if it is a moment as a whole. -/
def read? (token : List Char) : Option Moment :=
  match date token with
  | some rest => afterDate rest
  | none => if time token = some [] then some localTime else none

end Moment

end Straightline.Toml
