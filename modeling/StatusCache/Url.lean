/-
# Repository URLs

`is_url_prefix`, `append_url` and `decode_url` of the component `repository`.

URLs are compared segment by segment; slashes at their ends do not count. The backend may report a
URL with percent escapes, which are decoded before any comparison.
-/

import StatusCache.Text.Segments
import StatusCache.Text.Utf8

namespace StatusCache
namespace Url

/-- Whether `above` names the place `url` names or one above it. -/
def isPrefix (above url : String) : Bool :=
  let a := (Text.trimEnd '/' above).toList
  let u := (Text.trimEnd '/' url).toList
  u = a || (a ++ ['/']).isPrefixOf u

/-- The place at a relative path below `base`. -/
def append (base relative : String) : String :=
  let below := Text.trim '/' relative
  if below = "" then base else Text.trimEnd '/' base ++ "/" ++ below

/-- What is left of `url` below `above`, without slashes at its ends. -/
def below (above url : String) : String :=
  let a := (Text.trimEnd '/' above).toList
  Text.trim '/' (String.ofList (url.toList.drop a.length))

/-- Whether a text holds another one. -/
def holds (part : List Char) : List Char → Bool
  | [] => part.isEmpty
  | c :: cs => part.isPrefixOf (c :: cs) || holds part cs

/-- Whether a URL names its scheme. -/
def isAbsolute (url : String) : Bool := holds [':', '/', '/'] url.toList

/-- The value of a hexadecimal digit. -/
def hexDigit? (b : UInt8) : Option Nat :=
  let n := b.toNat
  if 48 ≤ n ∧ n ≤ 57 then some (n - 48)
  else if 65 ≤ n ∧ n ≤ 70 then some (n - 55)
  else if 97 ≤ n ∧ n ≤ 102 then some (n - 87)
  else none

/-- The byte that the two characters behind a `%` stand for: a two-digit hexadecimal number, or a
one-digit one behind a plus sign. -/
def escaped? (hi lo : UInt8) : Option UInt8 :=
  if hi = 43 then (hexDigit? lo).map UInt8.ofNat
  else
    match hexDigit? hi, hexDigit? lo with
    | some h, some l => some (UInt8.ofNat (16 * h + l))
    | _, _ => none

/-- The bytes with every escape replaced by the byte it stands for. -/
def unescape : List UInt8 → List UInt8
  | [] => []
  | 37 :: hi :: lo :: rest =>
    match escaped? hi lo with
    | some b => b :: unescape rest
    | none => 37 :: unescape (hi :: lo :: rest)
  | b :: rest => b :: unescape rest

/-- The URL with its percent escapes decoded; escapes that stand for no byte are kept. -/
def decode (url : String) : String := Text.Utf8.decodeLossy (unescape (Text.Utf8.encode url))

end Url
end StatusCache
