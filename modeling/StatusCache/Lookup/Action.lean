/-
# Looking up the status of a resource: questions, answers and effects

The shared `State` of the component `storage`, and what the `Reconciler` does to it: `cached`,
`nearest_cached_ancestor` and `register` (`register_resource` in section 4.3 of the svncache
specification).

A lookup asks the backend, the host and the disk, and commits records into a shared state. Host and
disk stay as they are during one lookup; the backend may answer differently every time. A lookup
that fails keeps what it has committed and asked so far.
-/

import StatusCache.Backend.Basic
import StatusCache.Cache.Basic
import StatusCache.Cache.Externals
import StatusCache.Cache.Switched
import StatusCache.Disk.Metadata
import StatusCache.Error
import StatusCache.Host
import StatusCache.Monitor
import StatusCache.Queue

namespace StatusCache

/-- Everything that lookups share. -/
structure State where
  cache : Cache := {}
  switched : Switched := {}
  externals : Externals := {}
  monitor : Monitor

/-- Folders below a container that still need a deeper lookup. -/
structure FetchJob where
  target : Resource
  entries : List Entry
deriving Repr

/-- Whether two lists say the same, entry by entry. -/
def Entry.sameList : List Entry → List Entry → Bool
  | [], [] => true
  | a :: as, b :: bs => a.same b && sameList as bs
  | _, _ => false

/-- Jobs of one target fold together, in the order in which they are pushed, and none is dropped. -/
instance : Coalesce FetchJob where
  same a b := a.target = b.target && Entry.sameList a.entries b.entries
  canSkip _ := false
  canMerge a b := a.target = b.target
  merge a b := { a with entries := a.entries ++ b.entries }

namespace Lookup

/-- Switches of a lookup. -/
structure Options where
  cacheEnabled : Bool := true
  /-- Whether the root of a batch that looks switched is checked for being an external. -/
  verifyRoots : Bool := true
  /-- Name of the metadata directories of working copies. -/
  metadata : String
deriving Repr

/-- What a lookup may ask. -/
structure Env where
  backend : Backend
  host : Host
  disk : Disk
  options : Options

/-- A record that was committed, and how many requests had been made by then. -/
structure Commit where
  record : Record
  asked : Nat
deriving Repr

/-- What a lookup may change: the shared state, the requests made, the newest first, the jobs left
for later, the oldest first, and the trace of what was committed, the newest first. -/
structure World where
  state : State
  calls : List Backend.Call := []
  jobs : List FetchJob := []
  commits : List Commit := []

/-- A part of a lookup. -/
abbrev Action (α : Type) := ExceptT Error (StateM World) α

variable (env : Env)

/-- Asks the backend for the status of a path. -/
def askStatus (path : Path) (depth : Backend.Depth) (options : Backend.Options) :
    Action (Except Backend.Failure (List Entry)) := do
  let w ← get
  set { w with calls := .status path depth options :: w.calls }
  return env.backend.status w.calls path depth options

/-- Asks the backend for the metadata of a node. -/
def askInfo (reference : Backend.Reference) (depth : Backend.Depth) :
    Action (Except Backend.Failure (List Info)) := do
  let w ← get
  set { w with calls := .info reference depth :: w.calls }
  return env.backend.info w.calls reference depth

/-- Changes the shared state. -/
def change (f : State → State) : Action Unit := modify fun w => { w with state := f w.state }

/-- The cached record of a resource. -/
def cached (r : Resource) : Action (Option Record) := do
  return (← get).state.cache.get? r

/-- The record of the nearest container above that has one. -/
def cachedAbove (r : Resource) : Action (Option Record) := do
  return (← get).state.cache.nearestAbove? r

/-- Whether the project of a resource is open and readable. -/
def Env.isAccessible (r : Resource) : Bool := r.project?.any env.host.isAccessible

/-- Whether a resource is a container with its own metadata directory. -/
def Env.hasMetadata (r : Resource) : Bool :=
  r.isContainer && (env.host.location? r).any (env.disk.hasMetadata env.options.metadata)

/-- Whether a folder that is not ignored has a working copy nested below it. -/
def Env.nestsMetadata (r : Resource) : Bool :=
  r.kind = .folder && !env.host.isIgnored r &&
    (env.host.location? r).any (env.disk.nestsMetadata env.options.metadata)

/-- The record that is committed for a finding: an obstructed folder for build output is ignored,
or does not exist, and a status without provenance has none. -/
def Env.committed (record : Record) : Record :=
  let record :=
    if record.text = .obstructed ∧ env.host.isBuildOutput record.resource then
      if (env.host.location? record.resource).any env.disk.isPresent then
        { record with text := .ignored }
      else { record with text := .notExists }
    else record
  record.canonical

/-- Commits a record into the cache. The database of a project is watched from then on. -/
def register (record : Record) : Action Record := do
  let record := env.committed record
  let r := record.resource
  change fun s =>
    let database :=
      if r.kind = .project ∧ !s.monitor.watches r then
        (env.host.location? r).bind (env.disk.database? env.options.metadata)
      else none
    { s with
      monitor := match database with
        | some database => s.monitor.watch r database
        | none => s.monitor
      cache := s.cache.put record }
  modify fun w =>
    { w with commits := { record := record, asked := w.calls.length } :: w.commits }
  return record

end Lookup
end StatusCache
