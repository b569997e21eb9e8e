/-
# Decimal integers

Persisted numbers are decimal digits behind an optional sign. A reader states the range it can
hold; a number outside it is as unreadable as text that is no number.
-/

namespace StatusCache
namespace Text
namespace Number

/-- The decimal digits of a number, most significant first. -/
def ofNat (n : Nat) : String := String.ofList (Nat.toDigits 10 n)

/-- The decimal digits of an integer, behind `-` when it is negative. -/
def ofInt : Int → String
  | .ofNat n => ofNat n
  | .negSucc n => String.ofList ('-' :: Nat.toDigits 10 (n + 1))

/-- A nonempty run of ASCII digits. -/
def digits? (cs : List Char) : Option Nat :=
  if cs ≠ [] ∧ cs.all Char.isDigit then some (Nat.ofDigitChars 10 cs 0) else none

/-- An integer between `lo` and `hi`. A `+` may always stand in front, a `-` only where negative
numbers are in range. -/
def bounded? (lo hi : Int) (s : String) : Option Int := do
  let value ← match s.toList with
    | '+' :: cs => (digits? cs).map Int.ofNat
    | '-' :: cs => if lo < 0 then (digits? cs).map fun n => -(n : Int) else none
    | cs => (digits? cs).map Int.ofNat
  if lo ≤ value ∧ value ≤ hi then some value else none

/-- A signed integer of 64 bits. -/
def int64? : String → Option Int := bounded? (-9223372036854775808) 9223372036854775807

/-- A signed integer of 32 bits. -/
def int32? : String → Option Int := bounded? (-2147483648) 2147483647

/-- An unsigned integer of 32 bits. -/
def nat32? (s : String) : Option Nat := (bounded? 0 4294967295 s).map Int.toNat

end Number
end Text
end StatusCache
