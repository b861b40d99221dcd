import Vault.Bytes
import Vault.Text.Quoted

/-!
# `Vault/Text/Hex.lean` — byte strings as pairs of hexadecimal digits

Reading works on the bytes of the text, not on its characters: the number of digits is the
number of bytes, and a position in an error message is a byte position. Digits of either case
are accepted, and **the length is judged before any digit is looked at**. Writing uses lower
case, except where a record's bytes are listed in a message.
-/

set_option autoImplicit false

namespace Vault

/-- Why a text is no byte string in hexadecimal. -/
inductive HexError where
  /-- The digits do not pair up. -/
  | oddLength
  /-- The byte at this position is no digit. -/
  | badDigit (byte : UInt8) (index : Nat)
deriving DecidableEq

namespace HexError

/-- The wording of the error. A byte is shown as the Latin-1 character of that code. -/
def message : HexError → String
  | oddLength => "Odd number of digits"
  | badDigit byte index =>
    let shown := Text.quotedChar (Char.ofNat byte.toNat)
    s!"Invalid character {shown} at position {index}"

end HexError

namespace Hex

/-- The value of a hexadecimal digit, given as an ASCII code. -/
def digitValue? (b : UInt8) : Option UInt8 :=
  if 48 ≤ b && b ≤ 57 then some (b - 48)
  else if 65 ≤ b && b ≤ 70 then some (b - 55)
  else if 97 ≤ b && b ≤ 102 then some (b - 87)
  else none

/-- The value of the digit at `index`, or the error that names it. -/
def digitAt (b : UInt8) (index : Nat) : Except HexError UInt8 :=
  match digitValue? b with
  | some v => .ok v
  | none => .error (.badDigit b index)

/-- Reads pairs of digits, the first of which stands at `index`. -/
def decodePairs : (index : Nat) → Bytes → Except HexError Bytes
  | index, hi :: lo :: rest => do
    let h ← digitAt hi index
    let l ← digitAt lo (index + 1)
    let tail ← decodePairs (index + 2) rest
    return (h <<< 4 ||| l) :: tail
  | _, _ => .ok []

/-- The byte string that a text of hexadecimal digits writes down. -/
def decode (digits : Bytes) : Except HexError Bytes :=
  if digits.length % 2 = 1 then .error .oddLength else decodePairs 0 digits

/-- The two digits of a byte, in lower case. -/
def digits (b : UInt8) : List Char :=
  [Nat.digitChar (b.toNat / 16), Nat.digitChar (b.toNat % 16)]

/-- A byte string in lower case digits. -/
def encode (b : Bytes) : String := String.ofList (b.flatMap digits)

/-- The two digits of a byte, in upper case. -/
def upper (b : UInt8) : String := String.ofList ((digits b).map Char.toUpper)

/-- The bytes as a list in a message: `[53, 42, 43]`. -/
def listed (b : Bytes) : String := "[" ++ ", ".intercalate (b.map upper) ++ "]"

end Hex

end Vault
