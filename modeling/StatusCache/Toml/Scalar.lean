/-
# Strings, numbers and dates of TOML

Every reader takes text, and returns what it read and the text behind it, or nothing if the text
does not start with what it reads.
-/

import StatusCache.Toml.Value

namespace StatusCache
namespace Toml

/-- Whether a character may stand for itself in a comment or string. -/
def isPlain (c : Char) : Bool := c = '\t' || (c.toNat ≥ 0x20 && c.toNat ≠ 0x7F)

/-- Whether a character separates tokens on a line. -/
def isBlank (c : Char) : Bool := c = ' ' || c = '\t'

/-- The text without blanks in front. -/
def skipBlanks (cs : List Char) : List Char := cs.dropWhile isBlank

/-- The text behind a line break. -/
def lineBreak? : List Char → Option (List Char)
  | '\n' :: cs => some cs
  | '\r' :: '\n' :: cs => some cs
  | _ => none

/-- The number that hexadecimal digits write. -/
def hexNumber? (cs : List Char) : Option Nat :=
  cs.foldlM
    (fun n c =>
      if c.isDigit then some (16 * n + (c.toNat - 48))
      else if 'a' ≤ c ∧ c ≤ 'f' then some (16 * n + (c.toNat - 87))
      else if 'A' ≤ c ∧ c ≤ 'F' then some (16 * n + (c.toNat - 55))
      else none)
    0

/-- The character of a code point in hexadecimal. -/
def codePoint? (cs : List Char) : Option Char := do
  let n ← hexNumber? cs
  if n.isValidChar then some (Char.ofNat n) else none

/-- The character that a letter behind a backslash stands for. -/
def escape? : Char → Option Char
  | 'b' => some (Char.ofNat 8)
  | 't' => some '\t'
  | 'n' => some '\n'
  | 'f' => some (Char.ofNat 12)
  | 'r' => some '\r'
  | '"' => some '"'
  | '\\' => some '\\'
  | _ => none

/-- One more character in front of what was read. -/
def consRead (c : Char) (r : Option (List Char × List Char)) :
    Option (List Char × List Char) :=
  r.map fun (cs, rest) => (c :: cs, rest)

/-- One more character in front of what was read, if there is one. -/
def consRead? (c : Option Char) (r : Option (List Char × List Char)) :
    Option (List Char × List Char) :=
  c.bind (consRead · r)

/-- A string on one line with escapes, behind its opening quote. -/
def basicString : List Char → Option (List Char × List Char)
  | '"' :: cs => some ([], cs)
  | '\\' :: 'u' :: a :: b :: c :: d :: cs =>
    consRead? (codePoint? [a, b, c, d]) (basicString cs)
  | '\\' :: 'U' :: a :: b :: c :: d :: e :: f :: g :: h :: cs =>
    consRead? (codePoint? [a, b, c, d, e, f, g, h]) (basicString cs)
  | '\\' :: c :: cs => consRead? (escape? c) (basicString cs)
  | c :: cs => if isPlain c && c ≠ '\\' then consRead c (basicString cs) else none
  | [] => none

/-- A string on one line without escapes, behind its opening quote. -/
def literalString : List Char → Option (List Char × List Char)
  | '\'' :: cs => some ([], cs)
  | c :: cs => if isPlain c then consRead c (literalString cs) else none
  | [] => none

/-- A string over several lines with escapes, behind its opening quotes. After a backslash at the
end of a line, blanks and line breaks are passed over; `isTrimming` says that this is going on. -/
def basicLines (isTrimming : Bool) : List Char → Option (List Char × List Char)
  | '"' :: '"' :: '"' :: '"' :: '"' :: cs => some (['"', '"'], cs)
  | '"' :: '"' :: '"' :: '"' :: cs => some (['"'], cs)
  | '"' :: '"' :: '"' :: cs => some ([], cs)
  | '\\' :: 'u' :: a :: b :: c :: d :: cs =>
    consRead? (codePoint? [a, b, c, d]) (basicLines false cs)
  | '\\' :: 'U' :: a :: b :: c :: d :: e :: f :: g :: h :: cs =>
    consRead? (codePoint? [a, b, c, d, e, f, g, h]) (basicLines false cs)
  | '\\' :: c :: cs =>
    if (lineBreak? (skipBlanks (c :: cs))).isSome then basicLines true (c :: cs)
    else consRead? (escape? c) (basicLines false cs)
  | '\r' :: '\n' :: cs =>
    if isTrimming then basicLines true cs else consRead '\n' (basicLines false cs)
  | c :: cs =>
    if isTrimming && (isBlank c || c = '\n') then basicLines true cs
    else if (isPlain c && c ≠ '\\') || c = '\n' then consRead c (basicLines false cs)
    else none
  | [] => none

/-- A string over several lines without escapes, behind its opening quotes. -/
def literalLines : List Char → Option (List Char × List Char)
  | '\'' :: '\'' :: '\'' :: '\'' :: '\'' :: cs => some (['\'', '\''], cs)
  | '\'' :: '\'' :: '\'' :: '\'' :: cs => some (['\''], cs)
  | '\'' :: '\'' :: '\'' :: cs => some ([], cs)
  | '\r' :: '\n' :: cs => consRead '\n' (literalLines cs)
  | c :: cs => if isPlain c || c = '\n' then consRead c (literalLines cs) else none
  | [] => none

/-- The text behind a line break, if there is one. -/
def dropLineBreak (cs : List Char) : List Char := (lineBreak? cs).getD cs

/-- A string of any of the four forms. -/
def string? : List Char → Option (List Char × List Char)
  | '"' :: '"' :: '"' :: cs => basicLines false (dropLineBreak cs)
  | '\'' :: '\'' :: '\'' :: cs => literalLines (dropLineBreak cs)
  | '"' :: cs => basicString cs
  | '\'' :: cs => literalString cs
  | _ => none

/-! ### Numbers and dates

These are runs of letters, digits and a few marks, and are told apart as a whole. -/

/-- Whether a character can be part of a number, a date or a word. -/
def isWordChar (c : Char) : Bool :=
  c.isAlphanum || c = '+' || c = '-' || c = '_' || c = '.' || c = ':'

/-- Digits, with single underscores allowed between them. -/
def digitRun? (isDigit : Char → Bool) : List Char → Option (List Char)
  | [] => none
  | [c] => if isDigit c then some [c] else none
  | c :: '_' :: cs => if isDigit c then (digitRun? isDigit cs).map (c :: ·) else none
  | c :: cs => if isDigit c then (digitRun? isDigit cs).map (c :: ·) else none

/-- A sign, and the text behind it. -/
def sign : List Char → Bool × List Char
  | '+' :: cs => (false, cs)
  | '-' :: cs => (true, cs)
  | cs => (false, cs)

/-- Decimal digits without a zero in front. -/
def decimal? (cs : List Char) : Option (List Char) := do
  let digits ← digitRun? Char.isDigit cs
  if digits.length > 1 ∧ digits.head? = some '0' then none else some digits

/-- The number that digits write in a base. -/
def numberOf (base : Nat) (digits : List Char) : Nat :=
  digits.foldl (fun n c => base * n + (hexNumber? [c]).getD 0) 0

/-- An integer that 64 bits hold. -/
def inRange (n : Int) : Option Int :=
  if -9223372036854775808 ≤ n ∧ n ≤ 9223372036854775807 then some n else none

/-- An integer. Only a decimal one may have a sign. -/
def integer? : List Char → Option Int
  | '0' :: 'x' :: cs => do
    let digits ← digitRun? (fun c => (hexNumber? [c]).isSome) cs
    inRange (numberOf 16 digits)
  | '0' :: 'o' :: cs => do
    let digits ← digitRun? (fun c => '0' ≤ c && c ≤ '7') cs
    inRange (numberOf 8 digits)
  | '0' :: 'b' :: cs => do
    let digits ← digitRun? (fun c => c = '0' || c = '1') cs
    inRange (numberOf 2 digits)
  | cs => do
    let (isNegative, cs) := sign cs
    let n : Int := numberOf 10 (← decimal? cs)
    inRange (if isNegative then -n else n)

/-- Whether a positive decimal number is too large for a floating point number of 64 bits: the digits
stand for a number that is to be multiplied by a power of ten. -/
def overflows (digits : List Char) (exponent : Int) : Bool :=
  let n := numberOf 10 digits
  let size : Int := (digits.dropWhile (· = '0')).length + exponent
  if n = 0 ∨ size < 309 then false
  else if size > 309 then true
  else
    let limit := Nat.pow 2 1024 - Nat.pow 2 970
    if exponent ≥ 0 then n * Nat.pow 10 exponent.toNat ≥ limit
    else n ≥ limit * Nat.pow 10 (-exponent).toNat

/-- Whether a text is a number with a fraction, an exponent or both, or a word for a number that is
none. A positive one must not be too large. -/
def isFloat (cs : List Char) : Bool :=
  let (isNegative, body) := sign cs
  if body = ['i', 'n', 'f'] ∨ body = ['n', 'a', 'n'] then true
  else
    let isMark (c : Char) : Bool := c = '.' || c = 'e' || c = 'E'
    let whole := body.takeWhile fun c => !isMark c
    let rest := body.dropWhile fun c => !isMark c
    let isE (c : Char) : Bool := c = 'e' || c = 'E'
    let fraction := (rest.takeWhile fun c => !isE c)
    let power := (rest.dropWhile fun c => !isE c)
    let fractionDigits := match fraction with
      | [] => some []
      | _ :: ds => digitRun? Char.isDigit ds
    let powerDigits := match power with
      | [] => some (false, [])
      | _ :: ds => (digitRun? Char.isDigit (sign ds).2).map fun p => ((sign ds).1, p)
    match decimal? whole, fractionDigits, powerDigits with
    | some w, some f, some (isSmall, p) =>
      let power : Int := if isSmall then -(numberOf 10 p : Int) else numberOf 10 p
      rest ≠ [] && (isNegative || !overflows (w ++ f) (power - f.length))
    | _, _, _ => false

/-- A number of two digits, at most `hi`. -/
def twoDigits? (hi : Nat) (a b : Char) : Option Nat :=
  if a.isDigit && b.isDigit && numberOf 10 [a, b] ≤ hi then some (numberOf 10 [a, b]) else none

/-- The number of days of a month. -/
def daysIn (year month : Nat) : Nat :=
  if month = 2 then
    if year % 4 = 0 ∧ (year % 100 ≠ 0 ∨ year % 400 = 0) then 29 else 28
  else if month = 4 ∨ month = 6 ∨ month = 9 ∨ month = 11 then 30
  else 31

/-- The text behind a date. -/
def date? : List Char → Option (List Char)
  | y :: e :: a :: r :: '-' :: m :: n :: '-' :: d :: f :: cs => do
    let month ← twoDigits? 12 m n
    let day ← twoDigits? 31 d f
    let year := [y, e, a, r]
    if year.all Char.isDigit ∧ 1 ≤ month ∧ 1 ≤ day ∧ day ≤ daysIn (numberOf 10 year) month then
      some cs
    else none
  | _ => none

/-- The text behind a time of day. -/
def time? : List Char → Option (List Char)
  | h :: o :: ':' :: m :: i :: ':' :: s :: e :: cs => do
    let _ ← twoDigits? 23 h o
    let _ ← twoDigits? 59 m i
    let _ ← twoDigits? 60 s e
    match cs with
    | '.' :: d :: ds =>
      if d.isDigit then some (ds.dropWhile Char.isDigit) else none
    | '.' :: [] => none
    | cs => some cs
  | _ => none

/-- Whether a text is an offset from universal time. -/
def isOffset : List Char → Bool
  | ['Z'] => true
  | ['z'] => true
  | [s, h, o, ':', m, i] =>
    (s = '+' || s = '-') && (twoDigits? 23 h o).isSome && (twoDigits? 59 m i).isSome
  | _ => false

/-- Whether a text is a date, a time, or both with or without an offset. -/
def isDateTime (cs : List Char) : Bool :=
  match date? cs with
  | some [] => true
  | some (c :: rest) =>
    (c = 'T' || c = 't' || c = ' ') &&
      match time? rest with
      | some [] => true
      | some offset => isOffset offset
      | none => false
  | none => time? cs = some []

/-- A number, a date, or a word for a truth value, as a whole. -/
def scalar? (cs : List Char) : Option Value :=
  if cs = ['t', 'r', 'u', 'e'] then some (.boolean true)
  else if cs = ['f', 'a', 'l', 's', 'e'] then some (.boolean false)
  else if isDateTime cs then some (.dateTime cs)
  else
    match integer? cs with
    | some n => some (.integer n)
    | none => if isFloat cs then some (.float cs) else none

/-- The run of characters that may be a number, a date or a word. A blank between a date and a time
belongs to it. -/
def wordRun (cs : List Char) : List Char × List Char :=
  let word := cs.takeWhile isWordChar
  let rest := cs.dropWhile isWordChar
  match rest with
  | ' ' :: h :: o :: ':' :: more =>
    if date? word = some [] ∧ h.isDigit ∧ o.isDigit then
      let time := h :: o :: ':' :: more
      (word ++ ' ' :: time.takeWhile isWordChar, time.dropWhile isWordChar)
    else (word, rest)
  | _ => (word, rest)

end Toml
end StatusCache
