/-
# Base64 with required padding

Groups of three bytes are written as four characters of the standard alphabet; a last group of one
or two bytes is filled up with `=`. Reading is strict: the length is a multiple of four, padding
stands only at the end, and the bits that a short group leaves unused are zero. So every byte
string has one written form.
-/

namespace StatusCache
namespace Text
namespace Base64

/-- The character of a six-bit value. -/
def symbol (n : Nat) : Char :=
  if n < 26 then Char.ofNat (65 + n)
  else if n < 52 then Char.ofNat (97 + (n - 26))
  else if n < 62 then Char.ofNat (48 + (n - 52))
  else if n = 62 then '+'
  else '/'

/-- The six-bit value of a character of the alphabet. -/
def value? (c : Char) : Option Nat :=
  let n := c.toNat
  if 65 ≤ n ∧ n ≤ 90 then some (n - 65)
  else if 97 ≤ n ∧ n ≤ 122 then some (n - 97 + 26)
  else if 48 ≤ n ∧ n ≤ 57 then some (n - 48 + 52)
  else if c = '+' then some 62
  else if c = '/' then some 63
  else none

/-- The written form of a byte string. -/
def encodeBytes : List UInt8 → List Char
  | [] => []
  | [a] => [symbol (a.toNat / 4), symbol (a.toNat % 4 * 16), '=', '=']
  | [a, b] =>
    [symbol (a.toNat / 4), symbol (a.toNat % 4 * 16 + b.toNat / 16),
      symbol (b.toNat % 16 * 4), '=']
  | a :: b :: c :: rest =>
    symbol (a.toNat / 4) :: symbol (a.toNat % 4 * 16 + b.toNat / 16) ::
      symbol (b.toNat % 16 * 4 + c.toNat / 64) :: symbol (c.toNat % 64) :: encodeBytes rest

/-- The bytes of a full group of four characters. -/
def group? (w x y z : Char) : Option (List UInt8) := do
  let w ← value? w
  let x ← value? x
  let y ← value? y
  let z ← value? z
  return [UInt8.ofNat (w * 4 + x / 16), UInt8.ofNat (x % 16 * 16 + y / 4),
    UInt8.ofNat (y % 4 * 64 + z)]

/-- The bytes of the last group, which may be padded. -/
def lastGroup? (w x y z : Char) : Option (List UInt8) :=
  if z ≠ '=' then group? w x y z
  else do
    let w ← value? w
    let x ← value? x
    if y = '=' then
      if x % 16 = 0 then return [UInt8.ofNat (w * 4 + x / 16)] else none
    else
      let y ← value? y
      if y % 4 = 0 then
        return [UInt8.ofNat (w * 4 + x / 16), UInt8.ofNat (x % 16 * 16 + y / 4)]
      else none

/-- The byte string a text writes, if it is the written form of one. -/
def decodeChars : List Char → Option (List UInt8)
  | [] => some []
  | [w, x, y, z] => lastGroup? w x y z
  | w :: x :: y :: z :: rest => do
    let head ← group? w x y z
    let tail ← decodeChars rest
    return head ++ tail
  | _ => none

/-- The written form of a byte string. -/
def encode (bytes : List UInt8) : String := String.ofList (encodeBytes bytes)

/-- The byte string a text writes, if it is the written form of one. -/
def decode? (s : String) : Option (List UInt8) := decodeChars s.toList

end Base64
end Text
end StatusCache
