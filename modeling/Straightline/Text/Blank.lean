/-!
# White space

The white space of Unicode, as the bytes that encode it. Program text may hold bytes that form no
character, so blanks are recognised by their encodings at the two ends of a text: `trim` strips
them, and nothing else.
-/

set_option autoImplicit false

namespace Straightline.Text

/-- The encodings of the white space characters above ASCII: U+0085, U+00A0, U+1680, U+2000 to
U+200A, U+2028, U+2029, U+202F, U+205F and U+3000. -/
def wideBlanks : List (List UInt8) :=
  [[0xc2, 0x85], [0xc2, 0xa0], [0xe1, 0x9a, 0x80],
   [0xe2, 0x80, 0x80], [0xe2, 0x80, 0x81], [0xe2, 0x80, 0x82], [0xe2, 0x80, 0x83],
   [0xe2, 0x80, 0x84], [0xe2, 0x80, 0x85], [0xe2, 0x80, 0x86], [0xe2, 0x80, 0x87],
   [0xe2, 0x80, 0x88], [0xe2, 0x80, 0x89], [0xe2, 0x80, 0x8a],
   [0xe2, 0x80, 0xa8], [0xe2, 0x80, 0xa9], [0xe2, 0x80, 0xaf], [0xe2, 0x81, 0x9f],
   [0xe3, 0x80, 0x80]]

/-- The blanks of ASCII: tab, line feed, vertical tab, form feed, carriage return and space. -/
def isAsciiBlank (b : UInt8) : Bool := (0x09 ≤ b && b ≤ 0x0d) || b = 0x20

/-- How many bytes after the first one belong to the blank that a text begins with, if it begins
with one of ASCII's blanks or of the given wider ones. -/
def blankTail? (wide : List (List UInt8)) (a : UInt8) (rest : List UInt8) : Option Nat :=
  if isAsciiBlank a then some 0
  else if a < 0x80 then none
  else (wide.find? (·.isPrefixOf (a :: rest))).map (·.length - 1)

/-- Drops the blanks at the beginning; `skip` bytes belong to the blank before. -/
def dropBlanks (wide : List (List UInt8)) : Nat → List UInt8 → List UInt8
  | _, [] => []
  | skip + 1, _ :: rest => dropBlanks wide skip rest
  | 0, a :: rest =>
    match blankTail? wide a rest with
    | some more => dropBlanks wide more rest
    | none => a :: rest

/-- Drops the blanks at the beginning of a text. -/
def trimLeft (bytes : List UInt8) : List UInt8 := dropBlanks wideBlanks 0 bytes

/-- Drops the blanks at the end of a text. -/
def trimRight (bytes : List UInt8) : List UInt8 :=
  (dropBlanks (wideBlanks.map List.reverse) 0 bytes.reverse).reverse

/-- A text without the blanks around it. -/
def trim (bytes : List UInt8) : List UInt8 := trimRight (trimLeft bytes)

end Straightline.Text
