/-
# Revisions

`Revision` and `RevisionKind` of the component `repository`.

A revision is a number, a date or a named point of a node's history. Persisted records name the
kind of a revision by a small number.
-/

import StatusCache.Text.Number

namespace StatusCache

/-- Stands for a revision that is unknown or has no meaning. -/
def unknownRevision : Int := -1

/-- A designation of a revision. -/
inductive Revision
  | number (n : Int)
  /-- Milliseconds since the epoch. -/
  | date (ms : Int)
  | start
  | committed
  | previous
  | base
  | working
  | head
deriving DecidableEq, Repr, Inhabited

namespace Revision

/-- The ways to designate a revision. -/
inductive Kind
  | start
  | number
  | date
  | committed
  | previous
  | base
  | working
  | head
deriving DecidableEq, Repr, Inhabited

/-- The persisted number of a kind. -/
def Kind.id : Kind → Nat
  | .start => 0
  | .number => 1
  | .date => 2
  | .committed => 3
  | .previous => 4
  | .base => 5
  | .working => 6
  | .head => 7

/-- The kind a persisted number stands for. -/
def Kind.ofId? : Int → Option Kind
  | 0 => some .start
  | 1 => some .number
  | 2 => some .date
  | 3 => some .committed
  | 4 => some .previous
  | 5 => some .base
  | 6 => some .working
  | 7 => some .head
  | _ => none

/-- A kind is found again by its number. -/
theorem Kind.ofId?_id (k : Kind) : ofId? k.id = some k := by cases k <;> rfl

/-- There are eight kinds. -/
theorem Kind.id_lt (k : Kind) : k.id < 8 := by cases k <;> decide

/-- The kind of a revision. -/
def kind : Revision → Kind
  | .number _ => .number
  | .date _ => .date
  | .start => .start
  | .committed => .committed
  | .previous => .previous
  | .base => .base
  | .working => .working
  | .head => .head

/-- The revision of a kind that carries no value. A number or date whose value is missing is read
as the head. -/
def ofKind : Kind → Revision
  | .start => .start
  | .committed => .committed
  | .previous => .previous
  | .base => .base
  | .working => .working
  | .number | .date | .head => .head

/-- How a revision is shown: a date between braces, a named point in capitals. -/
def label : Revision → String
  | .number n => Text.Number.ofInt n
  | .date ms => "\x7b" ++ Text.Number.ofInt ms ++ "\x7d"
  | .start => "START"
  | .committed => "COMMITTED"
  | .previous => "PREV"
  | .base => "BASE"
  | .working => "WORKING"
  | .head => "HEAD"

end Revision
end StatusCache
