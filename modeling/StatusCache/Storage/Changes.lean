/-
# Changes reported by operations

`as_resource_change`, `resource_change_from_bytes` and `repository_resource_from_bytes` of
`StatusStorage`; section 4.6 of the svncache specification.

An operation on the working copy reports what it did to a path. The report becomes a change of the
resource at that path, and changes and repository nodes have a persisted form, whose locations the
storage resolves by their identifiers.
-/

import StatusCache.Persisted.Change
import StatusCache.Storage.Nodes

namespace StatusCache
namespace Storage

variable (env : Env)

/-- What an operation reports about a path. -/
structure Report where
  path : Path
  kind : NodeKind
  text : EntryStatus
  prop : EntryStatus := .none
  copied : Bool := false
  switched : Bool := false
  revision : Option Int := none
  author : Option String := none
  date : Int := 0
  conflict : Option TreeConflict := none
  comment : Option String := none
deriving Repr, Inhabited

/-- The change that a report describes, read as an incoming one or as one of the working copy; none
if the path belongs to no resource. -/
def changeOfReport? (host : Host) (report : Report) (incoming : Bool) : Option Change :=
  (host.resourceAt? report.path (report.kind = .dir)).map fun resource =>
    let revision := report.revision.getD unknownRevision
    let record : Record :=
      { resource := resource
        text := Status.ofText report.prop report.text incoming
        prop := Status.ofProp report.prop
        mask := Mask.reported report.copied report.switched false
        revision := revision
        baseRevision := revision
        author := report.author
        date := report.date
        conflict := report.conflict }
    let record :=
      if record.status = .notExists then
        { record with revision := unknownRevision, baseRevision := unknownRevision }
      else record
    { record := record, comment := report.comment }

/-- The persisted form of a change, with the place of its resource. -/
def changeToBytes (host : Host) (c : Change) : List UInt8 :=
  let path := (host.location? c.record.resource).getD ⟨c.record.resource.path⟩
  Persisted.writeChange c path (c.originator.map Persisted.writeNode)

/-- The node that a persisted form describes; none if its location is unknown. -/
def nodeOfBytes (bytes : List UInt8) : Action (Option RepoNode) := do
  match Persisted.readNode bytes with
  | .error e => throw e
  | .ok record =>
    match (← get).storage.locations.get? record.locationId with
    | none => return none
    | some l =>
      let url := if Url.isAbsolute record.url then record.url else Url.append (record.root.url l) record.url
      let l ← wrap l url !record.isFolder
      return some ⟨l, url, record.isFolder, record.peg.getD .head, record.selected⟩

/-- The change that a persisted form describes. An originator that cannot be read is dropped. -/
def changeOfBytes (bytes : List UInt8) : Action Change := do
  match Persisted.readChange bytes env.host.resourceAt? with
  | .error e => throw e
  | .ok (c, none) => return c
  | .ok (c, some originator) =>
    let node ← tryCatch (nodeOfBytes originator) fun
      | .malformedRecord _ => return none
      | e => throw e
    return { c with originator := node }

end Storage
end StatusCache
