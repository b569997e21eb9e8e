/-
# Persisted changes

`encode_resource_change` and `decode_resource_change`; the resource-change record in section 6 of
the svncache specification.

| field | content |
| ---: | --- |
| 0 | whether the resource is a container |
| 1 | path on disk, in base64 |
| 2 | revision |
| 3 | text status |
| 4 | author, verbatim |
| 5 | date, `null` for 0 |
| 6, 7 | kind and value of the peg revision |
| 8, 9 | originator and comment, in base64 |
| 10 | change mask |
| 11 to 13 | action, reason and operation of a tree conflict |
| 14 to 17, 18 to 21 | kind, path, peg and URL of its left and right versions |
| 22 | property status |

Old records stop after the mask; their property status follows from the mask. An author that holds
a semicolon shifts the fields behind it, and one named `null` reads back as none.
-/

import StatusCache.Persisted.Node
import StatusCache.Status.Record

namespace StatusCache

/-- A status reported for a change, with its context. -/
structure Change where
  record : Record
  /-- None stands for the revision of the record. -/
  peg : Option Revision := none
  comment : Option String := none
  /-- The repository node that the change came from. -/
  originator : Option RepoNode := none
deriving DecidableEq, Repr, Inhabited

/-- The peg revision that is meant. -/
def Change.effectivePeg (c : Change) : Revision := c.peg.getD (.number c.record.revision)

namespace Persisted

/-- The number of fields of a record in the present form. -/
def fullFields : Nat := 23

/-- The number of fields that every record has. -/
def legacyFields : Nat := 11

/-- The value that is written for a peg revision: that of its kind if it has none of its own. -/
def writePegValue : Revision → String
  | .number n => Text.Number.ofInt n
  | .date ms => Text.Number.ofInt ms
  | r => Text.Number.ofNat r.kind.id

/-- The four fields of a version in a tree conflict. -/
def writeVersion : Option TreeConflict.Version → List String
  | none => [null, null, null, null]
  | some v =>
    [ Text.Number.ofNat v.kind.id,
      writeOptional (v.path.map writeText),
      Text.Number.ofInt v.peg,
      writeOptional (v.url.map writeText) ]

/-- The eleven fields of a tree conflict: what met what, and the two versions. -/
def writeConflict (conflict : Option TreeConflict) : List String :=
  (match conflict with
    | some conflict =>
      [ Text.Number.ofNat conflict.action.id,
        Text.Number.ofNat conflict.reason.id,
        Text.Number.ofNat conflict.operation.id ]
    | none => [null, null, null]) ++
  writeVersion (conflict.bind (·.left)) ++
  writeVersion (conflict.bind (·.right))

/-- The fields of a change to the resource at a path, with the bytes of its originator. -/
def changeFields (c : Change) (path : Path) (originator : Option (List UInt8)) : List String :=
  let r := c.record
  [ if r.resource.isContainer then "true" else "false",
    writeText path.text,
    Text.Number.ofInt r.revision,
    r.text.code,
    writeOptional r.author,
    if r.date = 0 then null else Text.Number.ofInt r.date,
    Text.Number.ofNat c.effectivePeg.kind.id,
    writePegValue c.effectivePeg,
    writeOptional (originator.map Text.Base64.encode),
    writeOptional (c.comment.map writeText),
    Text.Number.ofNat r.mask.bits ] ++
  writeConflict r.conflict ++
  [r.prop.code]

/-- The record of a change. -/
def writeChange (c : Change) (path : Path) (originator : Option (List UInt8)) : List UInt8 :=
  writeFields (changeFields c path originator)

/-- The status that a persisted code stands for. -/
def readStatus (field : String) : Except Error Status :=
  match Status.ofCode? field with
  | some status => .ok status
  | none => .error (.unknownStatus field)

/-- The version that four fields describe; none if all are absent. -/
def readVersion (kind path peg url : String) : Except Error (Option TreeConflict.Version) :=
  if kind = null ∧ path = null ∧ peg = null ∧ url = null then .ok none
  else do
    let path ← readOptional readText path
    let url ← readOptional readText url
    return some {
      kind := NodeKind.ofId (readId 0 kind)
      url := url
      path := path
      peg := readInt 0 peg }

/-- The tree conflict of a record, if it has the fields of one. -/
def readConflict (fields : List String) : Except Error (Option TreeConflict) :=
  let field (i : Nat) : String := fields.getD i ""
  if fields.length < fullFields ∨ field 11 = null then .ok none
  else do
    let left ← readVersion (field 14) (field 15) (field 16) (field 17)
    let right ← readVersion (field 18) (field 19) (field 20) (field 21)
    return some {
      action := .ofId (readId (-1) (field 11))
      reason := .ofId (readId (-1) (field 12))
      operation := .ofId (readId (-1) (field 13))
      left := left
      right := right }

/-- The peg revision of a change: none if it is the revision of the change itself, or unknown. -/
def readPeg (kind value : String) (revision : Int) : Option Revision :=
  let value := Text.Number.int64? value
  match readRevisionKind kind revision with
  | .number =>
    let peg := value.getD revision
    if peg ≠ revision ∧ revision ≠ unknownRevision then some (.number peg) else none
  | .date => some (.date (value.getD 0))
  | kind => some (Revision.ofKind kind)

/-- Text and property status of a record: the property status is a field of its own, or follows from
the mask, and then text without a modification of its own is normal. -/
def readStatuses (fields : List String) (text : Status) (mask : Mask) :
    Except Error (Status × Status) :=
  if fields.length ≥ fullFields then do
    return (text, ← readStatus (fields.getD 22 ""))
  else if mask.propModified then .ok (if mask.textModified then text else .normal, .modified)
  else .ok (text, .normal)

/-- The change that a record describes, and the bytes of its originator. The resource is the one
that `resolve` finds for the path and the flag for containers. -/
def readChange (bytes : List UInt8) (resolve : Path → Bool → Option Resource) :
    Except Error (Change × Option (List UInt8)) := do
  let fields ← readFields bytes
  let field (i : Nat) : String := fields.getD i ""
  if fields.length < legacyFields then
    .error (.malformedRecord
      ("resource change has " ++ Text.Number.ofNat fields.length ++
        " fields, expected at least " ++ Text.Number.ofNat legacyFields))
  else
    let path : Path := ⟨← readText (field 1)⟩
    let revision := readInt unknownRevision (field 2)
    let text ← readStatus (field 3)
    let originator ← readOptional readBytes (field 8)
    let comment ← readOptional readText (field 9)
    let mask := Mask.ofBits ((Text.Number.nat32? (field 10)).getD 0)
    let (text, prop) ← readStatuses fields text mask
    let conflict ← readConflict fields
    match resolve path (field 0 = "true") with
    | none => .error (.malformedRecord ("no resource at " ++ path.text))
    | some resource =>
      let record : Record :=
        { resource := resource
          text := text
          prop := prop
          mask := mask
          revision := revision
          baseRevision := revision
          author := if field 4 = null then none else some (field 4)
          date := if field 5 = null then 0 else readInt 0 (field 5)
          conflict := conflict }
      return ({ record := record, peg := readPeg (field 6) (field 7) revision, comment := comment },
        originator)

end Persisted
end StatusCache
