/-!
# Decoding bytes

Program text is a sequence of bytes that need not be well-formed UTF-8. `decode` reads one
character off the front; where no character begins, `next` hands out a single byte instead, so a
text always splits completely.
-/

set_option autoImplicit false

namespace Straightline.Text

/-- A continuation byte contributes its low six bits. -/
def continuation? (b : UInt8) : Option Nat :=
  if 0x80 ≤ b ∧ b < 0xc0 then some (b.toNat - 0x80) else none

/-- The character with the given code point if it is one and needs as many bytes as were used. -/
def scalar? (least n : Nat) : Option Char :=
  if least ≤ n ∧ n.isValidChar then some (Char.ofNat n) else none

/-- The character that the bytes begin with, and how many bytes it takes. -/
def decode : List UInt8 → Option (Char × Nat)
  | [] => none
  | a :: rest =>
    if a < 0x80 then some (Char.ofNat a.toNat, 1)
    else if a < 0xc0 then none
    else if a < 0xe0 then do
      let b ← rest[0]? >>= continuation?
      let c ← scalar? 0x80 ((a.toNat - 0xc0) * 64 + b)
      pure (c, 2)
    else if a < 0xf0 then do
      let b ← rest[0]? >>= continuation?
      let c ← rest[1]? >>= continuation?
      let c ← scalar? 0x800 ((a.toNat - 0xe0) * 4096 + b * 64 + c)
      pure (c, 3)
    else if a < 0xf8 then do
      let b ← rest[0]? >>= continuation?
      let c ← rest[1]? >>= continuation?
      let d ← rest[2]? >>= continuation?
      let c ← scalar? 0x10000 ((a.toNat - 0xf0) * 262144 + b * 4096 + c * 64 + d)
      pure (c, 4)
    else none

/-- One piece of a text: a character, or a byte that belongs to none. -/
inductive Piece where
  | char (c : Char)
  | byte (b : UInt8)
deriving DecidableEq, Repr

/-- The first piece of a non-empty text and the number of bytes that follow its first byte. -/
def next (a : UInt8) (rest : List UInt8) : Piece × Nat :=
  match decode (a :: rest) with
  | some (c, n) => (.char c, n - 1)
  | none => (.byte a, 0)

end Straightline.Text
