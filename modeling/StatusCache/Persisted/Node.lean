/-
# Persisted repository nodes

`encode_repository_resource`, `decode_repository_resource` and `to_revision`; the
repository-resource record in section 6 of the svncache specification.

| field | content |
| ---: | --- |
| 0 | whether the node is a directory, in base64 |
| 1 | identifier of the location |
| 2 | URL, in base64 |
| 3, 4 | kind and value of the selected revision |
| 5 | kind of root that a relative URL hangs off |
| 6, 7 | kind and value of the peg revision |

Old records have the flag and the URL in plain text, and may stop after any field from the fifth on.
A revision of a kind that cannot be read is a number if its value is positive and the head
otherwise.
-/

import StatusCache.Location
import StatusCache.Persisted.Field

namespace StatusCache
namespace Persisted

/-- The kind of revision that a field stands for, given the value beside it. -/
def readRevisionKind (field : String) (value : Int) : Revision.Kind :=
  match (Text.Number.int32? field).bind Revision.Kind.ofId? with
  | some kind => kind
  | none => if 0 < value then .number else .head

/-- The value that is written for a revision. -/
def writeRevisionValue : Revision → String
  | .number n => Text.Number.ofInt n
  | .date ms => Text.Number.ofInt ms
  | _ => "0"

/-- The revision of a kind and value; an unknown number is none. -/
def toRevision? (kind : Revision.Kind) (value : Int) : Option Revision :=
  match kind with
  | .number => if value = unknownRevision then none else some (.number value)
  | .date => some (.date value)
  | kind => some (Revision.ofKind kind)

/-- A repository node whose location is known by its identifier only. -/
structure NodeRecord where
  isFolder : Bool
  locationId : String
  /-- An absolute URL, or a path below the URL of `root`. -/
  url : String
  root : RootKind
  selected : Revision
  peg : Option Revision
deriving DecidableEq, Repr, Inhabited

/-- The record of a repository node. -/
def writeNode (n : RepoNode) : List UInt8 :=
  writeFields
    [ writeText (if n.isContainer then "true" else "false"),
      n.location.id,
      writeText n.url,
      Text.Number.ofNat n.selected.kind.id,
      writeRevisionValue n.selected,
      Text.Number.ofNat RootKind.repositoryRoot.id,
      Text.Number.ofNat n.peg.kind.id,
      writeRevisionValue n.peg ]

/-- The flag of a record, and whether the record is in the present form. -/
def readFlag (field : String) : Except Error (Bool × Bool) :=
  match field with
  | "true" => .ok (true, false)
  | "false" => .ok (false, false)
  | field => do return ((← readText field) = "true", true)

/-- The node that a record describes. -/
def readNode (bytes : List UInt8) : Except Error NodeRecord := do
  let fields ← readFields bytes
  let field (i : Nat) : String := fields.getD i ""
  if fields.length < 5 then
    .error (.malformedRecord
      ("repository resource has " ++ Text.Number.ofNat fields.length ++
        " fields, expected at least 5"))
  else
    let (isFolder, isPresentForm) ← readFlag (field 0)
    let url ← if isPresentForm then readText (field 2) else pure (field 2)
    let selectedValue := readInt unknownRevision (field 4)
    let pegValue := readInt unknownRevision (field 7)
    return {
      isFolder := isFolder
      locationId := field 1
      url := url
      root := ((Text.Number.int32? (field 5)).bind RootKind.ofId?).getD .repositoryRoot
      selected := (toRevision? (readRevisionKind (field 3) selectedValue) selectedValue).getD .head
      peg :=
        if fields.length > 7 then toRevision? (readRevisionKind (field 6) pegValue) pegValue
        else none }

end Persisted
end StatusCache
