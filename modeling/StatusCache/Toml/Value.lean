/-
# TOML values

A document is a table. A table remembers how it came about, since that decides what may still be
added to it: nothing to one written between braces; more sub-tables, but no values, to one that a
header named; a header of its own to one that only a longer header implied; and more dotted keys to
one that dotted keys made.
-/

namespace StatusCache
namespace Toml

/-- How a table came about. -/
inductive Origin
  /-- Written between braces. -/
  | inline
  /-- Named by a header. -/
  | header
  /-- A part of the name in a header. -/
  | implied
  /-- A part of a dotted key. -/
  | dotted
deriving DecidableEq, Repr

/-- A value. Numbers with a fraction, and dates, are kept as text. -/
inductive Value
  | string (s : String)
  | integer (n : Int)
  | float (text : List Char)
  | boolean (b : Bool)
  | dateTime (text : List Char)
  | array (elements : List Value)
  | table (origin : Origin) (entries : List (String × Value))
  /-- Tables that one header names again and again. -/
  | tables (elements : List (List (String × Value)))
deriving Repr

/-- The keys of a table with their values, in the order in which they appear. -/
abbrev Entries := List (String × Value)

/-- The entries with the value of a key replaced. -/
def Entries.set (key : String) (v : Value) (es : Entries) : Entries :=
  es.map fun e => if e.1 = key then (key, v) else e

/-- Changes the table at a path below another one. Tables on the way are made as needed: for a
dotted key, or for a header. Of tables under one header the last is meant. A dotted key reaches into
no table that a header named. -/
def descend (forDotted : Bool) (f : Origin → Entries → Option Entries) :
    List String → Origin → Entries → Option Entries
  | [], origin, es => f origin es
  | key :: keys, _, es =>
    match es.lookup key with
    | none => do
      let origin := if forDotted then Origin.dotted else Origin.implied
      let inner ← descend forDotted f keys origin []
      return es ++ [(key, .table origin inner)]
    | some (.table .inline _) => none
    | some (.table origin inner) =>
      if forDotted && origin = .header then none
      else do
        let inner ← descend forDotted f keys origin inner
        return es.set key (.table origin inner)
    | some (.tables elements) => do
      let inner ← descend forDotted f keys .header (elements.getLastD [])
      return es.set key (.tables (elements.dropLast ++ [inner]))
    | some _ => none

/-- Adds a value under a dotted key. -/
def addPair (keys : List String) (v : Value) (es : Entries) : Option Entries :=
  match keys.getLast? with
  | none => none
  | some key =>
    let path := keys.dropLast
    descend true
      (fun origin es =>
        if path ≠ [] ∧ origin ≠ .dotted then none
        else if (es.lookup key).isSome then none
        else some (es ++ [(key, v)]))
      path .header es

/-- Adds a value under a dotted key below the table that the last header named. -/
def addBelow (header keys : List String) (v : Value) (es : Entries) : Option Entries :=
  descend false (fun _ es => addPair keys v es) header .header es

/-- Opens the table that a header names. -/
def openTable (header : List String) (es : Entries) : Option Entries :=
  match header.getLast? with
  | none => none
  | some key =>
    descend false
      (fun _ es =>
        match es.lookup key with
        | none => some (es ++ [(key, .table .header [])])
        | some (.table .implied inner) => some (es.set key (.table .header inner))
        | some _ => none)
      header.dropLast .header es

/-- Opens one more of the tables that a header names again and again. -/
def openElement (header : List String) (es : Entries) : Option Entries :=
  match header.getLast? with
  | none => none
  | some key =>
    descend false
      (fun _ es =>
        match es.lookup key with
        | none => some (es ++ [(key, .tables [[]])])
        | some (.tables elements) => some (es.set key (.tables (elements ++ [[]])))
        | some _ => none)
      header.dropLast .header es

end Toml
end StatusCache
