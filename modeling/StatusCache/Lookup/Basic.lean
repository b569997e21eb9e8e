/-
# Looking up the status of a resource

`lookup`, `reload`, `load_subtree`, `load_svn` and `get_statuses` of the `Reconciler`; section 4.3
of the svncache specification.

A resource with a cached record keeps it. Otherwise its parent is looked up first, then the backend
is asked for the resource, and where the backend knows nothing the host's subtree is registered as
unversioned. A backend that fails leaves the resource without a status; only a cancellation ends
the lookup with an error.
-/

import StatusCache.Lookup.Batch

namespace StatusCache
namespace Lookup

variable (env : Env)

/-- The entries below a path. A locked working copy shows as one modified directory, and a path
outside any working copy has none. -/
def askEntries (path : Path) (depth : Backend.Depth) : Action (List Entry) := do
  match ← askStatus env path depth { unchanged := true, ignored := true } with
  | .ok entries => return Entry.arrange entries
  | .error (.cleanupRequired _) => return [Entry.needsCleanup path]
  | .error (.notWorkingCopy _) => return []
  | .error (.pathNotFound _) => return []
  | .error failure => throw (.backend failure)

/-- How deep the backend is asked. At the root of a working copy, and without a cache, the children
always come along. -/
def backendDepth (isRoot isContainer : Bool) (depth : Depth) : Backend.Depth :=
  if isRoot || !env.options.cacheEnabled then .immediates
  else
    match depth with
    | .zero => if isContainer then .empty else .immediates
    | .one => .immediates
    | .infinite => .infinity

/-- Asks the backend for a resource: for itself if it is a container, else for its parent. -/
def loadVersioned (r parent : Resource) (binding : Binding) (depth : Depth) :
    Action (Option Record) := do
  let target := if r.isContainer then r else parent
  match env.host.location? target, env.host.location? r with
  | some place, some requested =>
    let isRoot := place.components.length ≤ binding.location.components.length
    let entries ← askEntries env place (backendDepth env isRoot r.isContainer depth)
    let (record, deferred) ← fill env
      { resource := r
        target := target
        entries := entries
        desiredUrl := Url.append binding.node.url target.projectPath
        root := binding.location
        requested := requested }
    if entries.length = 1 && target.isContainer then
      change fun s => { s with cache := s.cache.ensureBucket target }
    if record.isSome && deferred.length > 1 && depth ≠ .zero && env.options.cacheEnabled then
      modify fun w => { w with jobs := w.jobs ++ [{ target := target, entries := deferred }] }
    return record
  | _, _ => return none

/-- Whether the backend may know the children of a container with this record. -/
def mayHoldVersioned (record : Record) : Bool :=
  !record.status.isForeign || record.isUnversionedExternal

/-- What the backend knows about a resource, given how its parent is looked up. It is not asked
about what is linked, or lies in a container that is not there or holds nothing versioned. -/
def loadKnown (lookupParent : Action Record) (r parent : Resource) (binding : Binding)
    (depth : Depth) : Action (Option Record) := do
  let belowRoot := parent.kind = .root
  if (belowRoot || env.host.isPresent parent) && !env.host.isLinked r then
    let isVersioned ←
      if belowRoot then pure true
      else do
        let above ← lookupParent
        pure (mayHoldVersioned above)
    if isVersioned then loadVersioned env r parent binding depth else return none
  else return none

/-- The record of a resource, given the one that the backend has of it. What it knows nothing about
or reports as unversioned is scanned. -/
def orScan (r : Resource) (depth : Depth) (known : Option Record) : Action Record :=
  match known with
  | some record =>
    if record.text.isUnversioned && record.text ≠ .ignored then
      scanUnversioned env r (env.host.isLinked r) depth
    else return record
  | none => scanUnversioned env r (env.host.isLinked r) depth

/-- Loads a resource, given how its parent is looked up. Without a cache nothing is kept from one
step to the next. -/
def loadSubtree (lookupParent : Action Record) (r parent : Resource) (depth : Depth) :
    Action Record := do
  match r.project?.bind env.host.binding? with
  | none => return Record.invalid r
  | some binding =>
    if env.host.isInternal r then return Record.invalid r
    else
      if !env.options.cacheEnabled then change fun s => { s with cache := {} }
      let depth := if env.options.cacheEnabled then depth else .zero
      orScan env r depth (← loadKnown env lookupParent r parent binding depth)

/-- The record of a resource that a failing backend leaves without a status. -/
def orInvalid (r : Resource) (load : Action Record) : Action Record :=
  tryCatch load fun
    | .backend .cancelled => throw (.backend .cancelled)
    | .backend _ => return Record.invalid r
    | e => throw e

/-- A cached record, or one that is loaded. -/
def cachedOr (r : Resource) (load : Action Record) : Action Record := do
  if env.options.cacheEnabled && env.isAccessible r then
    match ← cached r with
    | some record => return record
    | none => load
  else load

/-- Loads a resource below the given containers, nearest first. -/
def reloadBelow : List Resource → Resource → Depth → Action Record
  | [], r, _ => return Record.invalid r
  | parent :: above, r, depth =>
    if env.isAccessible r then
      orInvalid r
        (loadSubtree env (cachedOr env parent (reloadBelow above parent .one)) r parent depth)
    else return Record.invalid r

/-- Loads a resource and its children to a depth, even if it has a cached record. -/
def reload (r : Resource) (depth : Depth) : Action Record := reloadBelow env r.ancestors r depth

/-- The record of a resource, loaded to a depth if it is not cached. -/
def lookup (r : Resource) (depth : Depth) : Action Record := cachedOr env r (reload env r depth)

end Lookup
end StatusCache
