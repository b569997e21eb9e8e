/-
# Reading TOML documents

A document is a sequence of lines, each a value under a key, a header that names the table of the
lines below it, or nothing; any line may end in a comment. Values are nested less than eighty deep,
and a key has fewer than eighty parts.
-/

import StatusCache.Toml.Scalar

namespace StatusCache
namespace Toml

/-- The number of levels and of parts of a key that are too many. -/
def depthLimit : Nat := 80

/-- The text behind a comment; the line break stays. Characters that do not show must not stand in
it. -/
def comment? : List Char → Option (List Char)
  | '#' :: cs => some (cs.dropWhile isPlain)
  | cs => some cs

/-- The text behind the rest of a line that says nothing more. -/
def lineEnd? (cs : List Char) : Option (List Char) := do
  match ← comment? (skipBlanks cs) with
  | [] => some []
  | cs => lineBreak? cs

/-- The text behind blanks, line breaks and comments. -/
def skipLines : Nat → List Char → List Char
  | 0, cs => cs
  | fuel + 1, cs =>
    let cs := skipBlanks cs
    match lineBreak? cs with
    | some cs => skipLines fuel cs
    | none =>
      match cs with
      | '#' :: rest =>
        let behind := rest.dropWhile isPlain
        match lineBreak? behind with
        | some cs => skipLines fuel cs
        | none => '#' :: rest
      | cs => cs

/-- Whether a character may stand in a key without quotes. -/
def isKeyChar (c : Char) : Bool := c.isAlphanum || c = '_' || c = '-'

/-- One part of a key. -/
def keyPart : List Char → Option (String × List Char)
  | '"' :: cs => (basicString cs).map fun (s, rest) => (String.ofList s, rest)
  | '\'' :: cs => (literalString cs).map fun (s, rest) => (String.ofList s, rest)
  | cs =>
    match cs.takeWhile isKeyChar with
    | [] => none
    | s => some (String.ofList s, cs.dropWhile isKeyChar)

/-- A key of at most `fuel` parts, with dots between them. -/
def key : Nat → List Char → Option (List String × List Char)
  | 0, _ => none
  | fuel + 1, cs => do
    let (part, cs) ← keyPart (skipBlanks cs)
    match skipBlanks cs with
    | '.' :: cs =>
      let (parts, cs) ← key fuel cs
      return (part :: parts, cs)
    | cs => return ([part], cs)

mutual

/-- A value, nested at most `depth` deep. -/
def value (depth : Nat) : Nat → List Char → Option (Value × List Char)
  | 0, _ => none
  | fuel + 1, cs =>
    match cs with
    | '"' :: _ => (string? cs).map fun (s, rest) => (.string (String.ofList s), rest)
    | '\'' :: _ => (string? cs).map fun (s, rest) => (.string (String.ofList s), rest)
    | '[' :: cs =>
      if depth ≤ 1 then none
      else (elements (depth - 1) fuel cs).map fun (vs, rest) => (.array vs, rest)
    | '{' :: cs =>
      if depth ≤ 1 then none
      else
        match skipBlanks cs with
        | '}' :: rest => some (.table .inline [], rest)
        | cs => (pairs (depth - 1) fuel [] cs).map fun (es, rest) => (.table .inline es, rest)
    | cs => do
      let (word, rest) := wordRun cs
      return (← scalar? word, rest)

/-- The elements of an array, behind its bracket or a comma. -/
def elements (depth : Nat) : Nat → List Char → Option (List Value × List Char)
  | 0, _ => none
  | fuel + 1, cs =>
    match skipLines cs.length cs with
    | ']' :: cs => some ([], cs)
    | cs => do
      let (v, cs) ← value depth fuel cs
      match skipLines cs.length cs with
      | ']' :: cs => return ([v], cs)
      | ',' :: cs =>
        let (vs, cs) ← elements depth fuel cs
        return (v :: vs, cs)
      | _ => none

/-- The pairs of a table between braces, behind its brace or a comma. -/
def pairs (depth : Nat) : Nat → Entries → List Char → Option (Entries × List Char)
  | 0, _, _ => none
  | fuel + 1, es, cs => do
    let (keys, cs) ← key (depthLimit - 1) cs
    match cs with
    | '=' :: cs =>
      let (v, cs) ← value depth fuel (skipBlanks cs)
      let es ← addPair keys v es
      match skipBlanks cs with
      | '}' :: cs => return (es, cs)
      | ',' :: cs => pairs depth fuel es cs
      | _ => none
    | _ => none

end

/-- The lines of a document below a header. -/
def lines : Nat → List String → Entries → List Char → Option Entries
  | 0, _, _, _ => none
  | fuel + 1, header, es, cs =>
    match skipBlanks cs with
    | [] => some es
    | '#' :: cs => do lines fuel header es (← lineEnd? ('#' :: cs))
    | '[' :: '[' :: cs => do
      let (keys, cs) ← key (depthLimit - 1) cs
      match cs with
      | ']' :: ']' :: cs => lines fuel keys (← openElement keys es) (← lineEnd? cs)
      | _ => none
    | '[' :: cs => do
      let (keys, cs) ← key (depthLimit - 1) cs
      match cs with
      | ']' :: cs => lines fuel keys (← openTable keys es) (← lineEnd? cs)
      | _ => none
    | cs =>
      match lineBreak? cs with
      | some cs => lines fuel header es cs
      | none => do
        let (keys, cs) ← key (depthLimit - 1) cs
        match cs with
        | '=' :: cs =>
          let (v, cs) ← value depthLimit cs.length (skipBlanks cs)
          lines fuel header (← addBelow header keys v es) (← lineEnd? cs)
        | _ => none

/-- The document that a text writes. A byte order mark in front does not count. -/
def parse? (text : String) : Option Entries :=
  let cs := text.toList
  let cs := if cs.head? = some (Char.ofNat 0xFEFF) then cs.drop 1 else cs
  lines (cs.length + 1) [] [] cs

end Toml
end StatusCache
