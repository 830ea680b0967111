import Straightline.Text.Printable
import Straightline.Text.Utf8

/-!
# Quoted text

Messages show source text between double quotes. Printable characters stand for themselves; the
quote, the backslash and the usual control characters have short escapes; other characters are
written by their number, and bytes that belong to no character by their two hexadecimal digits.
-/

set_option autoImplicit false

namespace Straightline.Text

/-- `n` in lower-case hexadecimal, padded with zeros to at least `width` digits. -/
def hex (width n : Nat) : String :=
  let digits := Nat.toDigits 16 n
  String.ofList (List.replicate (width - digits.length) '0' ++ digits)

/-- The short escape of a character, if it has one. -/
def shortEscape? (c : Char) : Option String :=
  if c = '"' then some "\\\""
  else if c = '\\' then some "\\\\"
  else if c = '\x07' then some "\\a"
  else if c = '\x08' then some "\\b"
  else if c = '\x0c' then some "\\f"
  else if c = '\n' then some "\\n"
  else if c = '\r' then some "\\r"
  else if c = '\t' then some "\\t"
  else if c = '\x0b' then some "\\v"
  else none

/-- How a piece of text appears between quotes. -/
def Piece.quoted : Piece → String
  | .byte b => "\\x" ++ hex 2 b.toNat
  | .char c =>
    match shortEscape? c with
    | some e => e
    | none =>
      if isPrintable c then String.singleton c
      else if c.toNat < 0x80 then "\\x" ++ hex 2 c.toNat
      else if c.toNat < 0x10000 then "\\u" ++ hex 4 c.toNat
      else "\\U" ++ hex 8 c.toNat

/-- Appends the quoted form of a text to `done`; `skip` bytes belong to the piece before. -/
def quotePieces (done : String) : Nat → List UInt8 → String
  | _, [] => done
  | skip + 1, _ :: rest => quotePieces done skip rest
  | 0, a :: rest =>
    let (piece, more) := next a rest
    quotePieces (done ++ piece.quoted) more rest

/-- A text between double quotes. -/
def quote (bytes : List UInt8) : String := quotePieces "\"" 0 bytes ++ "\""

/-- A string between double quotes. -/
def quoteString (s : String) : String := quote s.toUTF8.toList

end Straightline.Text
