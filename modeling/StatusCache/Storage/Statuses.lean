/-
# Statuses of a storage

`as_local_resource` with its variants `as_local_resource_dirty` and `as_local_resource_accessible`,
`refresh_local_resources`, `registered_children` and `process_fetch_job` of `StatusStorage`; section
4.6 of the svncache specification.

A storage answers with the cached status of a resource or looks it up. A refresh drops cached
statuses, so that the next lookup asks again; the children of a container are its members and what
the backend knows besides; a fetch job looks up the folders that a lookup has left for later.
-/

import StatusCache.Storage.Basic

namespace StatusCache
namespace Storage

variable (env : Env)

/-- The status of a resource, looked up if it is not cached. -/
def status (r : Resource) : Action Record := do
  let depth := (← get).storage.suggestedDepth
  runLookup env fun e => Lookup.lookup e r depth

/-- The cached status of a resource. Without one the resource is reported not to exist, switched if
the nearest cached container above is. -/
def cachedStatus (r : Resource) : Action Record := do
  let s := (← get).storage
  if !s.cacheEnabled then status env r
  else if !(lookupEnv env s).isAccessible r then return Record.invalid r
  else
    match s.state.cache.get? r with
    | some record => return record
    | none =>
      let switched := (s.state.cache.nearestAbove? r).any (·.mask.switched)
      return Record.bare r .notExists { switched := switched }

/-- The status of a resource; it is an error if nothing can be said about it. -/
def accessibleStatus (r : Resource) : Action Record := do
  let record ← status env r
  if record.isInvalid then
    throw (.inaccessible (((env.host.location? r).map Path.text).getD r.path))
  return record

/-- Drops one resource from the cache: what is cached below it to the depth, the switched URLs of
what was visited there, and the bucket that lists it. -/
def refreshOne (depth : Depth) (s : State) (r : Resource) : State :=
  let (visited, cache) := s.cache.invalidate r depth
  { s with
    cache := match r.parent? with
      | some parent => cache.removeBucket parent
      | none => cache
    switched := visited.foldl Switched.remove s.switched }

/-- Drops the cached statuses of resources, so that the next lookup asks again. From a refresh of
whole subtrees on, lookups load whole subtrees. -/
def refresh (rs : List Resource) (depth : Depth) : Action Unit :=
  change fun s =>
    { s with
      suggestedDepth := if depth = .infinite then .infinite else .one
      state := (if depth = .infinite then Resource.topmost rs else rs).foldl (refreshOne depth)
        s.state }

/-- The children of a container, in order: its members, and what the backend knows besides. -/
def children (container : Resource) : Action (List Resource) := do
  if container.project?.isNone then return []
  let members := env.host.members container
  if !(← get).storage.state.cache.hasBucket container then
    let _ ← runLookup env fun e => Lookup.reload e container .one
  match (← get).storage.state.cache.children? container with
  | none => return members
  | some records =>
    let known := (records.filter fun r => r.status ≠ .notExists).map (·.resource)
    return Resource.sort (members ++ known).eraseDups

/-- Looks up the folders of a job and their children. Entries that are no folders are passed
over. -/
def fetch (job : FetchJob) : Action Unit := do
  match job.target.project? with
  | none => return
  | some project =>
    match env.host.location? project with
    | none => return
    | some root =>
      job.entries.forM fun e => do
        if e.kind = .dir || env.disk.isDir e.path then
          match (e.path.below? root).map (Text.replace '\\' '/') with
          | none => return
          | some relative =>
            if relative ≠ "" then
              let folder := project.folderAt relative
              let record ← status env folder
              if !record.isInvalid then
                let _ ← children env folder

end Storage
end StatusCache
