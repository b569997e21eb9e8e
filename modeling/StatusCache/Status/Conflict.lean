/-
# Tree conflicts

`TreeConflict`, `ConflictAction`, `ConflictReason`, `ConflictOperation` and `ConflictVersion`.

A tree conflict says what an incoming change tried to do to a node, what had become of the node
locally, during which operation the two met, and which versions of the node were involved. Every
part is persisted by a small number, and a number that means nothing is read as the first choice.
-/

namespace StatusCache

/-- What the backend says a node is. -/
inductive NodeKind
  | none
  | file
  | dir
  | symlink
  | unknown
deriving DecidableEq, Repr, Inhabited

/-- The persisted number of a kind. -/
def NodeKind.id : NodeKind → Nat
  | .none => 0
  | .file => 1
  | .dir => 2
  | .unknown => 3
  | .symlink => 4

/-- The kind a persisted number stands for. -/
def NodeKind.ofId : Int → NodeKind
  | 1 => .file
  | 2 => .dir
  | 3 => .unknown
  | 4 => .symlink
  | _ => .none

/-- A kind is found again by its number. -/
theorem NodeKind.ofId_id (k : NodeKind) : ofId k.id = k := by cases k <;> rfl

/-- There are five kinds. -/
theorem NodeKind.id_lt (k : NodeKind) : k.id < 5 := by cases k <;> decide

namespace TreeConflict

/-- What the incoming change tried to do. -/
inductive Action
  | modify
  | add
  | delete
  | replace
deriving DecidableEq, Repr, Inhabited

/-- The number of an action. -/
def Action.id : Action → Nat
  | .modify => 0
  | .add => 1
  | .delete => 2
  | .replace => 3

/-- The action with a number; a modification if there is none. -/
def Action.ofId : Int → Action
  | 1 => .add
  | 2 => .delete
  | 3 => .replace
  | _ => .modify

/-- An action is found again by its number. -/
theorem Action.ofId_id (a : Action) : ofId a.id = a := by cases a <;> rfl

/-- There are four actions. -/
theorem Action.id_lt (a : Action) : a.id < 4 := by cases a <;> decide

/-- The local state that the change met. -/
inductive Reason
  | modified
  | obstructed
  | deleted
  | missing
  | unversioned
  | added
  | replaced
  | movedAway
  | movedHere
deriving DecidableEq, Repr, Inhabited

/-- The number of a reason. -/
def Reason.id : Reason → Nat
  | .modified => 0
  | .obstructed => 1
  | .deleted => 2
  | .missing => 3
  | .unversioned => 4
  | .added => 5
  | .replaced => 6
  | .movedAway => 7
  | .movedHere => 8

/-- The reason with a number; a modification if there is none. -/
def Reason.ofId : Int → Reason
  | 1 => .obstructed
  | 2 => .deleted
  | 3 => .missing
  | 4 => .unversioned
  | 5 => .added
  | 6 => .replaced
  | 7 => .movedAway
  | 8 => .movedHere
  | _ => .modified

/-- A reason is found again by its number. -/
theorem Reason.ofId_id (r : Reason) : ofId r.id = r := by cases r <;> rfl

/-- There are nine reasons. -/
theorem Reason.id_lt (r : Reason) : r.id < 9 := by cases r <;> decide

/-- The operation during which the conflict arose. -/
inductive Operation
  | none
  | update
  | switch
  | merge
deriving DecidableEq, Repr, Inhabited

/-- The number of an operation. -/
def Operation.id : Operation → Nat
  | .none => 0
  | .update => 1
  | .switch => 2
  | .merge => 3

/-- The operation with a number; no operation if there is none. -/
def Operation.ofId : Int → Operation
  | 1 => .update
  | 2 => .switch
  | 3 => .merge
  | _ => .none

/-- An operation is found again by its number. -/
theorem Operation.ofId_id (o : Operation) : ofId o.id = o := by cases o <;> rfl

/-- There are four operations. -/
theorem Operation.id_lt (o : Operation) : o.id < 4 := by cases o <;> decide

/-- One of the two versions that met. -/
structure Version where
  kind : NodeKind
  url : Option String
  /-- Path inside the repository. -/
  path : Option String
  peg : Int
deriving DecidableEq, Repr, Inhabited

end TreeConflict

/-- A structural conflict of a node. -/
structure TreeConflict where
  action : TreeConflict.Action
  reason : TreeConflict.Reason
  operation : TreeConflict.Operation
  left : Option TreeConflict.Version
  right : Option TreeConflict.Version
deriving DecidableEq, Repr, Inhabited

end StatusCache
