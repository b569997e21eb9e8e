/-
# From a status answer to records

`Batch`, `fill_cache`, `fetch_tree_conflicts`, `query_external`, `is_external_of`, `disk_node_kind`
and `kind_matches` of the `Reconciler`; section 4.3 of the svncache specification.

A status answer lists the nodes below a container, each directory right before what lies in it.
Every node gets a record, unless it has one already. The flags of a record depend on the records of
the containers above it, so the order matters. Folders that got a record here, and nothing below
them yet, are left for a deeper lookup.
-/

import StatusCache.Lookup.Unversioned

namespace StatusCache
namespace Lookup

/-- A status answer and what it was asked for. -/
structure Batch where
  /-- The resource that is looked up. -/
  resource : Resource
  /-- The container that the request was about. -/
  target : Resource
  entries : List Entry
  /-- URL of the target if nothing above it is switched. -/
  desiredUrl : String
  /-- Root of the working copy. -/
  root : Path
  /-- Place of the resource on disk. -/
  requested : Path

variable (env : Env)

/-- The kind of a node, taken from the disk when the backend does not know it. -/
def diskKind (d : Disk) (path : Path) (reported : NodeKind) : NodeKind :=
  match reported with
  | .none | .unknown =>
    match d.readLink path with
    | .ok (.link _) => .symlink
    | .ok (.dir _) => .dir
    | .ok (.file ..) => .file
    | .error _ => .none
  | kind => kind

/-- Whether a resource of a kind can stand for a node of a kind. -/
def kindMatches (kind : Resource.Kind) : NodeKind → Bool
  | .file => kind = .file
  | .dir => kind.isContainer
  | _ => false

/-- The tree conflicts that the metadata of a node describe: of several nodes the last one counts. Only a
cancellation is an error. -/
def fetchConflicts (path : Path) : Action (Option (List TreeConflict)) := do
  match ← askInfo env { path := path.text } .empty with
  | .ok infos => return (infos.getLast?.bind (·.conflicts)).filter (· ≠ [])
  | .error .cancelled => throw (.backend .cancelled)
  | .error _ => return none

/-- The status of the root of an external, asked for at its own place. -/
def queryExternal (path : Path) : Action (Option Entry) := do
  match ← askStatus env path .immediates { unchanged := true } with
  | .ok entries => return (Entry.arrange entries).head?.filter (·.url.isSome)
  | .error .cancelled => throw (.backend .cancelled)
  | .error _ => return none

/-- Whether a container reports the node at a path as an external. -/
def isExternalOf (container : Resource) (path : Path) : Action Bool := do
  match env.host.location? container with
  | none => return false
  | some place =>
    match ← askStatus env place .immediates { unchanged := true } with
    | .ok entries => return (entries.find? (·.path.same path)).any (·.text = .external)
    | .error .cancelled => throw (.backend .cancelled)
    | .error _ => return false

/-- An entry whose kind is settled, with the resource it is about. -/
structure Finding where
  entry : Entry
  kind : NodeKind
  isSymlink : Bool
  resource : Resource
deriving Repr

/-- The resource an entry is about, given its path inside the project: the host's member there, or
else a folder or file by the entry's kind. An entry at the requested place is about the requested
resource, if the kinds allow it. -/
def locate (batch : Batch) (project : Resource) (entry : Entry) (kind : NodeKind)
    (relative : String) : Finding :=
  let member := env.host.member? project relative
  let isSymlink := kind = .symlink ||
    member.any fun m => !kindMatches m.kind kind && env.host.isSymlink m
  let r := member.getD
    (if kind = .dir && !isSymlink then project.folderAt relative else project.fileAt relative)
  let kind := if isSymlink then if r.isContainer then .dir else .file else kind
  let isRequested := entry.path.same batch.requested &&
    (batch.resource.kind = .project || batch.resource.kind = .root ||
      kindMatches batch.resource.kind kind)
  { entry := entry
    kind := kind
    isSymlink := isSymlink
    resource := if isRequested then batch.resource else r }

/-- Settles what an entry is about. An entry of no kind and without a tree conflict is about
nothing, and so is one at the root of the working copy that does not come first. -/
def settle (batch : Batch) (project : Resource) (isFirst : Bool) (entry : Entry) :
    Action (Option Finding) := do
  let entry := { entry with conflicts := entry.conflicts.filter (· ≠ []) }
  let kind := diskKind env.disk entry.path entry.kind
  let conflicts ←
    if entry.conflicts.isNone && (entry.inConflict || kind = .none) then
      fetchConflicts env entry.path
    else pure entry.conflicts
  let entry := { entry with conflicts := conflicts }
  if kind = .none && entry.conflicts.isNone then return none
  let relative := Text.replace '\\' '/' ((entry.path.below? batch.root).getD "")
  if !isFirst && relative = "" then return none
  return some (locate env batch project entry kind relative)

/-- The URL that a resource has if nothing between it and the target is switched. -/
def Batch.urlOf (batch : Batch) (r : Resource) : String :=
  Url.append batch.desiredUrl ((r.relativeTo? batch.target).getD "")

/-- Whether a node has a URL, and not below the expected one. -/
def isElsewhere (expected : String) (entry : Entry) : Bool :=
  entry.url.any fun url => !Url.isPrefix expected (Url.decode url)

/-- The flags of a record, given the record of the nearest container above. A node without a URL is
not switched. -/
def maskOf (batch : Batch) (f : Finding) (above : Option Record) (isExternal : Bool) : Mask where
  copied := above.any (·.mask.copied) || f.entry.copied
  switched := (f.entry.switched || f.entry.fileExternal ||
    isElsewhere (batch.urlOf f.resource) f.entry) && f.entry.url.isSome
  external := isExternal
  symlink := f.isSymlink
  locked := f.entry.lockOwner.isSome
  unknownKind := f.kind = .none && f.entry.conflicts.isSome

/-- The text status that an entry reports. A tree conflict comes before everything else. -/
def reportedText (entry : Entry) : Status :=
  if entry.conflicts.isSome then .conflicting else Status.ofText entry.prop entry.text false

/-- The text status of a record, given the reported one. -/
def settledText (f : Finding) (reported : Status) : Action Status := do
  let text :=
    if reported = .deleted && env.disk.isOccupied f.entry.path then .preReplaced else reported
  let text ←
    if env.host.isLinked f.resource then pure .linked
    else if text ≠ .obstructed && f.entry.text = .unversioned then
      delegatedStatus env f.resource .new
    else pure text
  if text = .new && f.kind = .dir && env.disk.hasMetadata env.options.metadata f.entry.path then
    return .obstructed
  else return text

/-- The record that an entry describes, with the text status that is settled on. -/
def recordOf (batch : Batch) (f : Finding) (above : Option Record) (isExternal : Bool)
    (text : Status) : Record :=
  let e := f.entry
  let mask := maskOf batch f above isExternal
  { resource := f.resource
    text := text
    prop := Status.ofProp e.prop
    mask := mask
    revision :=
      if e.lastChanged = unknownRevision ∧ mask.copied then e.revision else e.lastChanged
    baseRevision := e.revision
    author := e.author
    date := e.date
    conflict := e.conflicts.bind (·.head?) }

/-- Commits the record of a finding. A new directory with metadata of its own is left alone, and
one that mounts a working copy further down is only marked as such. -/
def commit (batch : Batch) (f : Finding) (above : Option Record) (isExternal : Bool) :
    Action (Option Record) := do
  let r := f.resource
  let e := f.entry
  let reported := reportedText e
  let isNewDir := reported = .new && f.kind = .dir
  if isNewDir && (env.host.location? r).any (env.disk.hasMetadata env.options.metadata) then
    return none
  else if isNewDir && env.nestsMetadata r then
    let _ ← register env (Record.bare r .ignored { external := true })
    return none
  else
    if (maskOf batch f above isExternal).switched then
      change fun s => { s with switched := s.switched.insert r (Url.decode (e.url.getD "")) }
    let text ← settledText env f reported
    let record ← register env (recordOf batch f above isExternal text)
    return some record

/-- Whether the first entry of a batch, which looks switched, is an external of the container above
it. -/
def isExternalRoot (batch : Batch) (f : Finding) : Action Bool := do
  if env.options.verifyRoots && isElsewhere (batch.urlOf f.resource) f.entry then
    match f.resource.parent? with
    | none => return false
    | some parent =>
      if parent.kind = .root then return false
      else if (← cached parent).any (·.mask.switched) then return false
      else isExternalOf env parent f.entry.path
  else return false

/-- Commits the record of a finding without one. Below an opaque node everything is ignored, and an
external is described by its own root, if that answers. -/
def recordFinding (batch : Batch) (isFirst : Bool) (f : Finding) : Action (Option Record) := do
  let above ← cachedAbove f.resource
  if above.any (·.mask.isOpaque) then
    let _ ← register env (Record.bare f.resource .ignored { forbidden := true })
    return none
  else if f.entry.text = .external then
    match ← queryExternal env f.entry.path with
    | some fresh => commit env batch { f with entry := fresh } above true
    | none => return some (← register env (Record.bare f.resource .ignored { external := true }))
  else
    let isExternal ← if isFirst then isExternalRoot env batch f else pure false
    commit env batch f above isExternal

/-- How far a batch has been worked through. -/
structure Progress where
  /-- The record of the resource that is looked up. -/
  answer : Option Record := none
  /-- The folders that got a record, and nothing below them yet. -/
  deferred : Table Resource Entry := {}

/-- The folders to defer after a finding without a record: it may be one, and what contains it is
none any more. -/
def Progress.defer (p : Progress) (f : Finding) : Progress :=
  let deferred := if f.kind = .dir then p.deferred.insert f.resource f.entry else p.deferred
  match f.resource.parent? with
  | some parent => { p with deferred := deferred.erase parent }
  | none => { p with deferred := deferred }

/-- Works through one entry. -/
def fillEntry (batch : Batch) (project : Resource) (isFirst : Bool) (entry : Entry)
    (p : Progress) : Action Progress := do
  match ← settle env batch project isFirst entry with
  | none => return p
  | some f =>
    let (record, p) ← match ← cached f.resource with
      | some record => pure (some record, p)
      | none => do pure (← recordFinding env batch isFirst f, p.defer f)
    return if f.resource = batch.resource then { p with answer := record <|> p.answer } else p

/-- Works through entries in their order. -/
def fillEntries (batch : Batch) (project : Resource) :
    Bool → List Entry → Progress → Action Progress
  | _, [], p => return p
  | isFirst, e :: es, p => do
    fillEntries batch project false es (← fillEntry env batch project isFirst e p)

/-- Works through a batch. Returns the record of the resource that is looked up, if the batch has
one, and the entries of the folders that need a deeper lookup, in the order of their resources. -/
def fill (batch : Batch) : Action (Option Record × List Entry) := do
  match batch.resource.project? with
  | none => return (none, [])
  | some project =>
    let p ← fillEntries env batch project true batch.entries {}
    let deferred := p.deferred.entries.mergeSort fun (r, _) (s, _) => (compare r s).isLE
    return (p.answer, deferred.map (·.2))

end Lookup
end StatusCache
