/-
# Writing TOML

A string is written in the plainest of the four forms that can hold it: between double quotes if
nothing has to be escaped, else between single quotes if those can hold it, else over several lines.
An array of more than one element has a line for each.
-/

import StatusCache.Text.Segments

namespace StatusCache
namespace Toml

/-- The length of the longest run of a character. -/
def longestRun (c : Char) (cs : List Char) : Nat :=
  (cs.foldl
    (fun (longest, now) x =>
      let now := if x = c then now + 1 else 0
      (max longest now, now))
    (0, 0)).1

/-- Whether a character can only be written by an escape. -/
def needsEscape (c : Char) : Bool :=
  (c.toNat < 0x20 && c ≠ '\t' && c ≠ '\n') || c.toNat = 0x7F

/-- The four upper-case hexadecimal digits of a code point below 65536. -/
def hex4 (n : Nat) : List Char :=
  let digits := (Nat.toDigits 16 n).map Char.toUpper
  List.replicate (4 - digits.length) '0' ++ digits

/-- How a character is written between double quotes. Over several lines a line break stands for
itself. -/
def escaped (overLines : Bool) (c : Char) : List Char :=
  if c = '\\' then ['\\', '\\']
  else if c = '\t' then ['\\', 't']
  else if c = '\n' then if overLines then ['\n'] else ['\\', 'n']
  else if c = '\r' then ['\\', 'r']
  else if c.toNat = 8 then ['\\', 'b']
  else if c.toNat = 12 then ['\\', 'f']
  else if c.toNat < 0x20 || c.toNat = 0x7F then ['\\', 'u'] ++ hex4 c.toNat
  else [c]

/-- A text between double quotes. At most `allowed` quotes in a row stand for themselves. -/
def escapedText (overLines : Bool) (allowed : Nat) : Nat → List Char → List Char
  | _, [] => []
  | run, '"' :: cs =>
    if run < allowed then '"' :: escapedText overLines allowed (run + 1) cs
    else '\\' :: '"' :: escapedText overLines allowed 0 cs
  | _, c :: cs => escaped overLines c ++ escapedText overLines allowed 0 cs

/-- The form in which a string is written. -/
def writeString (s : String) : String :=
  let cs := s.toList
  let singles := longestRun '\'' cs
  let doubles := longestRun '"' cs
  let hasBreak := cs.contains '\n'
  let hasBackslash := cs.contains '\\'
  let hasControl := cs.any needsEscape
  let opening := if hasBreak then ['\n'] else []
  let basic := ['"'] ++ escapedText false 0 0 cs ++ ['"']
  let literal := ['\''] ++ cs ++ ['\'']
  let basicLines := ['"', '"', '"'] ++ opening ++ escapedText true 2 0 cs ++ ['"', '"', '"']
  let literalLines := ['\'', '\'', '\''] ++ opening ++ cs ++ ['\'', '\'', '\'']
  String.ofList <|
    if !hasControl && !hasBackslash && doubles = 0 && !hasBreak then basic
    else if !hasControl && singles = 0 && !hasBreak then literal
    else if !hasControl && !hasBackslash && doubles ≤ 2 then basicLines
    else if !hasControl && singles ≤ 2 then literalLines
    else if hasBreak then basicLines
    else basic

/-- An array of strings. -/
def writeStrings : List String → String
  | [] => "[]"
  | [s] => "[" ++ writeString s ++ "]"
  | ss => "[\n" ++ String.join (ss.map fun s => "    " ++ writeString s ++ ",\n") ++ "]"

/-- A truth value. -/
def writeBool (b : Bool) : String := if b then "true" else "false"

/-- A table under its header, with values that are already written. -/
def writeTable (header : String) (pairs : List (String × String)) : String :=
  "[" ++ header ++ "]\n" ++ String.join (pairs.map fun (key, value) => key ++ " = " ++ value ++ "\n")

end Toml
end StatusCache
