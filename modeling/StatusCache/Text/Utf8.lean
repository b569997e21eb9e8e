/-
# Bytes of a text

Texts travel as UTF-8. Strict reading refuses bytes that are no UTF-8; lenient reading replaces
each maximal part of a broken sequence by U+FFFD.
-/

namespace StatusCache
namespace Text
namespace Utf8

/-- The bytes of a text. -/
def encode (s : String) : List UInt8 := s.toByteArray.data.toList

/-- The text that the bytes write, if they are UTF-8. -/
def decode? (bytes : List UInt8) : Option String := String.fromUTF8? ⟨bytes.toArray⟩

/-- Strict reading undoes writing. -/
theorem decode?_encode (s : String) : decode? (encode s) = some s := by
  have h : (⟨s.toByteArray.data⟩ : ByteArray).IsValidUTF8 := s.isValidUTF8
  simp [decode?, encode, String.fromUTF8?, String.fromUTF8, h]

/-- What is read strictly is written as those bytes. -/
theorem encode_of_decode? {bytes : List UInt8} {s : String} (h : decode? bytes = some s) :
    encode s = bytes := by
  unfold decode? String.fromUTF8? at h
  split at h
  · obtain rfl := Option.some.inj h
    rfl
  · cases h

/-- The shape of a sequence that starts with `lead`: the range of its second byte, the number of
bytes after that one, and the bits that the lead contributes. -/
def shape? (lead : UInt8) : Option ((UInt8 × UInt8) × Nat × Nat) :=
  let n := lead.toNat
  if 0xC2 ≤ n ∧ n ≤ 0xDF then some ((0x80, 0xBF), 0, n - 0xC0)
  else if n = 0xE0 then some ((0xA0, 0xBF), 1, 0)
  else if n = 0xED then some ((0x80, 0x9F), 1, 0x0D)
  else if 0xE1 ≤ n ∧ n ≤ 0xEF then some ((0x80, 0xBF), 1, n - 0xE0)
  else if n = 0xF0 then some ((0x90, 0xBF), 2, 0)
  else if n = 0xF4 then some ((0x80, 0x8F), 2, 4)
  else if 0xF1 ≤ n ∧ n ≤ 0xF3 then some ((0x80, 0xBF), 2, n - 0xF0)
  else none

/-- Where a lenient reader stands: between characters, or inside a sequence that still expects
`more + 1` bytes, the next one in the given range. -/
inductive Reading
  | start
  | inside (range : UInt8 × UInt8) (more : Nat) (acc : Nat)

/-- The character that stands for a broken sequence. -/
def replacement : Char := Char.ofNat 0xFFFD

/-- A byte read between characters: what it writes and where the reader stands afterwards. -/
def firstByte (b : UInt8) : List Char × Reading :=
  if b < 0x80 then ([Char.ofNat b.toNat], .start)
  else
    match shape? b with
    | some (range, more, acc) => ([], .inside range more acc)
    | none => ([replacement], .start)

/-- Reads on. A byte that does not continue the open sequence ends it as broken and is read again
as a first byte. -/
def lossyFrom : Reading → List UInt8 → List Char
  | .start, [] => []
  | .inside .., [] => [replacement]
  | .start, b :: bs =>
    let (out, next) := firstByte b
    out ++ lossyFrom next bs
  | .inside (lo, hi) more acc, b :: bs =>
    if lo ≤ b ∧ b ≤ hi then
      let acc := acc * 64 + b.toNat % 64
      match more with
      | 0 => Char.ofNat acc :: lossyFrom .start bs
      | more + 1 => lossyFrom (.inside (0x80, 0xBF) more acc) bs
    else
      let (out, next) := firstByte b
      replacement :: out ++ lossyFrom next bs

/-- The text of the bytes, with U+FFFD for what is no UTF-8. -/
def decodeLossy (bytes : List UInt8) : String := String.ofList (lossyFrom .start bytes)

end Utf8
end Text
end StatusCache
