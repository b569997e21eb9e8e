/-
# Patterns for names

| pattern | what it stands for |
| --- | --- |
| `?` | one byte |
| `*` | any bytes, slashes among them |
| `**/` at the start | nothing, or any directories |
| `/**` at the end | a slash and anything behind it |
| `/**/` | a slash, or a slash, any directories and a slash |
| `[a-z]`, `[!a-z]`, `[^a-z]` | one byte of the set, or one outside of it |
| `{a,b}` | one of the alternatives; empty ones do not count |
| `\c` | the character `c` itself |

A pattern covers the whole of a name. Matching is on the bytes of the name, so a character outside
ASCII is as many bytes as it is long, and a set holds the bytes of its members.
-/

import StatusCache.Glob.Expr
import StatusCache.Text.Utf8

namespace StatusCache

/-- A pattern, and the expression it stands for. -/
structure Glob where
  pattern : String
  expr : Glob.Expr
deriving DecidableEq, Repr

namespace Glob

/-- A part of a pattern. The two kinds that a following `**` can extend are kept apart. -/
inductive Part
  /-- Any directories in front of a name. -/
  | leading
  /-- Anything below a directory. -/
  | trailing
  | plain (e : Expr)
deriving DecidableEq, Repr

/-- The bytes of a character. -/
def bytesOf (c : Char) : List UInt8 := Text.Utf8.encode (String.singleton c)

/-- The byte of a slash. -/
def slash : Expr := .single 47

/-- The expression of a part. -/
def Part.expr : Part → Expr
  | .leading => (Expr.nothing.union slash).union (Expr.anything.append slash)
  | .trailing => slash.append .anything
  | .plain e => e

/-- A slash, with or without directories behind it and another slash. -/
def between : Expr := slash.union (slash.append (Expr.anything.append slash))

/-- The expression of parts, given last part first. -/
def sequence (parts : List Part) : Expr := parts.foldl (fun rest p => p.expr.append rest) .nothing

/-- One of several alternatives; those that say nothing are left out. -/
def choice (branches : List Expr) : Expr :=
  match branches.filter (· ≠ .nothing) with
  | [] => .nothing
  | e :: es => es.foldl Expr.union e

/-- The byte ranges of a range of characters. -/
def byteRanges (lo hi : Char) : List (UInt8 × UInt8) :=
  if lo = hi then (bytesOf lo).map fun b => (b, b)
  else
    match (bytesOf lo).reverse, bytesOf hi with
    | last :: before, first :: behind =>
      before.map (fun b => (b, b)) ++ (last, first) :: behind.map fun b => (b, b)
    | _, _ => []

/-- A run of alternatives that is still open: its finished branches, and the parts of the branch
being read, last part first. The pattern as a whole is the outermost such run. -/
structure Level where
  done : List Expr := []
  parts : List Part := []

/-- A set being read: whether it is a complement, its ranges, last range first, and whether a dash
has just been read. -/
structure Members where
  negated : Bool := false
  ranges : List (Char × Char) := []
  dash : Bool := false

/-- The expression of a finished set. A dash at the end stands for itself. -/
def Members.expr (m : Members) : Expr :=
  let ranges := if m.dash then ('-', '-') :: m.ranges else m.ranges
  .byte m.negated (ranges.reverse.flatMap fun (lo, hi) => byteRanges lo hi)

/-- One more character of a set, if it does not end a range before its start. -/
def Members.add? (m : Members) (c : Char) : Option Members :=
  match m.dash, m.ranges with
  | true, (lo, _) :: ranges =>
    if lo ≤ c then some { m with ranges := (lo, c) :: ranges, dash := false } else none
  | _, ranges => some { m with ranges := (c, c) :: ranges }

/-- One more part on the innermost level. -/
def push (p : Part) : List Level → List Level
  | [] => []
  | l :: ls => { l with parts := p :: l.parts } :: ls

/-- Two runs of any bytes in a row. -/
def pushRuns (levels : List Level) : List Level :=
  push (.plain .anything) (push (.plain .anything) levels)

/-- The part in front of a `**` replaced by what both stand for together. -/
def extend (isLast : Bool) : List Level → List Level
  | [] => []
  | l :: ls =>
    let part := match l.parts with
      | .leading :: _ => .leading
      | .trailing :: _ => .trailing
      | _ => if isLast then .trailing else .plain between
    { l with parts := part :: l.parts.drop 1 } :: ls

/-- Whether the branch being read has no part yet. -/
def isFresh : List Level → Bool
  | [] => true
  | l :: _ => l.parts.isEmpty

mutual

/-- Reads a pattern on. `prev` is the character just read. -/
def readParts (levels : List Level) (prev : Option Char) : List Char → Option Expr
  | [] =>
    match levels with
    | [l] => some (if l.parts = [.leading] then .anything else sequence l.parts)
    | _ => none
  | '?' :: cs => readParts (push (.plain .any) levels) (some '?') cs
  | '[' :: cs =>
    match cs with
    | [] => none
    | c :: cs =>
      if c = '!' ∨ c = '^' then readMembers levels true { negated := true } cs
      else readMembers levels false { ranges := [(c, c)] } cs
  | '{' :: cs => readParts ({} :: levels) (some '{') cs
  | '}' :: cs =>
    match levels with
    | inner :: l :: ls =>
      let e := choice (inner.done ++ [sequence inner.parts])
      readParts ({ l with parts := .plain e :: l.parts } :: ls) (some '}') cs
    | _ => none
  | ',' :: cs =>
    match levels with
    | inner :: l :: ls =>
      readParts ({ done := inner.done ++ [sequence inner.parts] } :: l :: ls) (some ',') cs
    | _ => readParts (push (.plain (.literal (bytesOf ','))) levels) (some ',') cs
  | '\\' :: cs =>
    match cs with
    | [] => none
    | c :: cs => readParts (push (.plain (.literal (bytesOf c))) levels) (some c) cs
  | '*' :: '*' :: cs =>
    if isFresh levels then
      match cs with
      | [] => readParts (push .leading levels) (some '*') []
      | '/' :: cs => readParts (push .leading levels) (some '/') cs
      | cs => readParts (pushRuns levels) (some '*') cs
    else if prev ≠ some '/' ∧ (levels.length < 2 ∨ (prev ≠ some ',' ∧ prev ≠ some '{')) then
      readParts (pushRuns levels) (some '*') cs
    else
      match cs with
      | [] => readParts (extend true levels) (some '*') []
      | '/' :: cs => readParts (extend false levels) (some '/') cs
      | c :: cs =>
        if (c = ',' ∨ c = '}') ∧ levels.length ≥ 2 then
          readParts (extend true levels) (some '*') (c :: cs)
        else readParts (pushRuns levels) (some '*') (c :: cs)
  | '*' :: cs => readParts (push (.plain .anything) levels) (some '*') cs
  | c :: cs => readParts (push (.plain (.literal (bytesOf c))) levels) (some c) cs

/-- Reads a set on. `first` says that no member has been read yet. -/
def readMembers (levels : List Level) (first : Bool) (m : Members) : List Char → Option Expr
  | [] => none
  | c :: cs =>
    if first then readMembers levels false { m with ranges := [(c, c)] } cs
    else if c = ']' then readParts (push (.plain m.expr) levels) (some ']') cs
    else if c = '-' ∧ !m.dash then readMembers levels false { m with dash := true } cs
    else
      match m.add? c with
      | some m => readMembers levels false m cs
      | none => none

end

/-- The pattern that a text writes, if it writes one. -/
def parse? (pattern : String) : Option Glob :=
  (readParts [{}] none pattern.toList).map fun e => ⟨pattern, e⟩

/-- Whether the pattern covers a name. -/
def covers (g : Glob) (name : String) : Bool := g.expr.accepts (Text.Utf8.encode name)

end Glob
end StatusCache
