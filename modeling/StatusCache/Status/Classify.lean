/-
# Classifying a backend report

`text_status_of`, `prop_status_of`, `compound_status` and `change_mask`; section 4.1 of the svncache
specification.

The backend reports one code for a node's text and one for its properties. Here they become the
statuses of a record. A report may describe the working copy or an incoming change; for the latter
an unversioned node does not exist and a conflict is a mere modification.
-/

import StatusCache.Status.Basic
import StatusCache.Status.Mask

namespace StatusCache

/-- The code the backend reports for text or properties. -/
inductive EntryStatus
  | none
  | unversioned
  | normal
  | added
  | missing
  | deleted
  | replaced
  | modified
  | merged
  | conflicted
  | ignored
  | obstructed
  | external
  | incomplete
deriving DecidableEq, Repr, Inhabited

namespace Status

/-- The text status of a node. -/
def ofText (prop text : EntryStatus) (incoming : Bool) : Status :=
  match text with
  | .ignored => .ignored
  | .unversioned => if incoming then .notExists else .new
  | .added => .added
  | .deleted => .deleted
  | .missing => .missing
  | .conflicted => if incoming then .modified else .conflicting
  | .merged | .modified => .modified
  | .obstructed => .obstructed
  | .replaced => .replaced
  | .none => if !incoming && prop = .none then .notExists else .normal
  | .normal | .external | .incomplete => .normal

/-- The property status of a node. -/
def ofProp : EntryStatus → Status
  | .conflicted => .conflicting
  | .modified => .modified
  | _ => .normal

/-- The status shown for a node. -/
def ofCodes (prop text : EntryStatus) (incoming : Bool) : Status :=
  compound (ofText prop text incoming) (ofProp prop)

end Status

/-- The flags that follow from the report alone. -/
def Mask.reported (copied switched external : Bool) : Mask :=
  { copied := copied, switched := switched, external := external }

end StatusCache
