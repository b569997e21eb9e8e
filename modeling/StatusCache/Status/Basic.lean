/-
# Statuses

`TextStatus` with `code` and its reader; section 3 of the svncache specification.

The status of a resource's text or properties, and the code under which it is persisted. A
persisted code is one of thirteen words; `internalInvalid` is never read back.
-/

namespace StatusCache

/-- Status of the text or the properties of a resource. -/
inductive Status
  | normal
  | new
  | added
  | deleted
  | missing
  | conflicting
  | modified
  | ignored
  | obstructed
  | replaced
  /-- Deleted, with something unversioned at its place. -/
  | preReplaced
  | notExists
  | linked
  /-- Stands for "nothing can be said about this resource". -/
  | internalInvalid
deriving DecidableEq, Repr, Inhabited

namespace Status

/-- The persisted code. A node that does not exist is written `null`. -/
def code : Status → String
  | .normal => "Normal"
  | .new => "New"
  | .added => "Added"
  | .deleted => "Deleted"
  | .missing => "Missing"
  | .conflicting => "Conflicting"
  | .modified => "Modified"
  | .ignored => "Ignored"
  | .obstructed => "Obstructed"
  | .replaced => "Replaced"
  | .preReplaced => "Prereplaced"
  | .notExists => "null"
  | .linked => "Linked"
  | .internalInvalid => "InternalInvalid"

/-- The status a persisted code stands for. -/
def ofCode? : String → Option Status
  | "null" => some .notExists
  | "Normal" => some .normal
  | "New" => some .new
  | "Added" => some .added
  | "Deleted" => some .deleted
  | "Missing" => some .missing
  | "Conflicting" => some .conflicting
  | "Modified" => some .modified
  | "Ignored" => some .ignored
  | "Obstructed" => some .obstructed
  | "Replaced" => some .replaced
  | "Prereplaced" => some .preReplaced
  | "Linked" => some .linked
  | _ => none

/-- A status is found again by its code, but for the one that is never written. -/
theorem ofCode?_code (s : Status) : ofCode? s.code = if s = .internalInvalid then none else some s := by
  cases s <;> rfl

/-- No code is read as `internalInvalid`. -/
theorem ofCode?_ne (field : String) : ofCode? field ≠ some .internalInvalid := by
  unfold ofCode?
  split <;> simp

/-- How a status is shown: by its code, but spelled out when the node does not exist. -/
def label : Status → String
  | .notExists => "NotExists"
  | s => s.code

/-- Not under version control, or about to leave it. -/
def isUnversioned : Status → Bool
  | .preReplaced | .new | .ignored | .notExists => true
  | _ => false

/-- Outside the control of the backend. -/
def isForeign : Status → Bool
  | .preReplaced | .new | .ignored | .notExists | .linked | .obstructed => true
  | _ => false

/-- Revision, author and date have no meaning. -/
def lacksProvenance : Status → Bool
  | .new | .ignored | .notExists | .linked => true
  | _ => false

/-- The status shown for a resource. A property conflict dominates, and clean text with modified
properties counts as modified. -/
def compound (text prop : Status) : Status :=
  match text, prop with
  | _, .conflicting => .conflicting
  | .normal, .modified => .modified
  | text, _ => text

end Status
end StatusCache
