/-
# Nodes the backend knows nothing about

`delegated_status`, `top_level_status`, `unversioned_status` and `load_unversioned_subtree` of the
`Reconciler`; sections 4.3a and 4.3b of the svncache specification.

The host's subtree below an unversioned resource is registered node by node. A node takes its
status from the nearest container above it where that is obstructed, linked or ignored.
-/

import StatusCache.Lookup.Action

namespace StatusCache
namespace Lookup

variable (env : Env)

/-- A status, unless the record of the nearest container above says more. -/
def inherited (above : Option Record) (status : Status) : Status :=
  match above.map Record.status with
  | some .obstructed => .obstructed
  | some .linked => .linked
  | some .ignored => .ignored
  | _ => status

/-- The status of an unversioned node for which `status` was found, given the record of the nearest
container above. -/
def delegated (r : Resource) (above : Option Record) (status : Status) : Status :=
  if status = .linked || env.host.isLinked r then .linked
  else if status = .obstructed || status = .ignored then status
  else inherited above status

/-- The status of the resource that a scan starts from, given its record and that of the nearest
container above. -/
def unversioned (r : Resource) (isLinked : Bool) (known above : Option Record) : Status :=
  if isLinked then .linked
  else if !(env.host.location? r).any env.disk.isOccupied then .notExists
  else if env.host.isIgnored r then .ignored
  else
    match known with
    | some record => record.status
    | none => inherited above .new

/-- The status of an unversioned node for which `status` was found. -/
def delegatedStatus (r : Resource) (status : Status) : Action Status := do
  return delegated env r (← cachedAbove r) status

/-- What a scan has found so far. -/
structure Scan where
  /-- The record committed first. -/
  first : Option Record := none
  /-- Whether the resource that the scan starts from mounts a working copy further down. -/
  mounts : Bool := false

/-- The status of a node of a scan, given the status of the resource that the scan starts from and
the record of the nearest container above. Below a symlink everything is ignored. -/
def scannedText (origin node : Resource) (found : Status) (above : Option Record) : Status :=
  let found := if above.any (·.mask.symlink) then .ignored else found
  if node = origin then found else delegated env node above found

/-- Whether a node of a scan is ignored and mounts a working copy further down. -/
def isMounting (origin : Resource) (scan : Scan) (text : Status) (above : Option Record) : Bool :=
  !above.any Record.isIgnoredByRule && text = .ignored &&
    !above.any (fun record => record.mask.forbidden || record.mask.symlink) &&
    (scan.mounts || env.nestsMetadata origin)

/-- The flags of a node of a scan, given its own record and that of the nearest container above. -/
def scannedMask (origin node : Resource) (scan : Scan) (text : Status)
    (known above : Option Record) : Mask where
  switched := above.any (·.mask.switched)
  external := node = origin && known.any (·.mask.external)
  forbidden := above.any (fun record => record.mask.forbidden || record.mask.symlink) ||
    isMounting env origin scan text above
  symlink := text = .new && node.kind = .folder && env.host.isSymlink node

/-- Registers one node of a scan that starts from `origin`. -/
def registerUnversioned (origin : Resource) (isLinked : Bool) (node : Resource) (scan : Scan) :
    Action Scan := do
  let known ← cached origin
  let found := unversioned env origin isLinked known (← cachedAbove origin)
  let above ← cachedAbove node
  let text := scannedText env origin node found above
  let mask := scannedMask env origin node scan text known above
  let record ← register env (Record.bare node text mask)
  let mounts := scan.mounts || (isMounting env origin scan text above && node = origin)
  return { first := scan.first <|> some record, mounts := mounts }

/-- Whether a scan leaves out a node, with all that it holds: it is working copy metadata, or has
metadata of its own. -/
def Env.passesOver (node : Resource) : Bool := env.host.isInternal node || env.hasMetadata node

/-- Registers a node and what lies at most `levels` below it, each container before its members. -/
def visit (origin : Resource) (isLinked : Bool) : Nat → Resource → Scan → Action Scan
  | levels, node, scan => do
    if env.passesOver node then return scan
    let scan ← registerUnversioned env origin isLinked node scan
    match levels with
    | 0 => return scan
    | levels + 1 =>
      if node.isContainer then
        (env.host.members node).foldlM (fun scan m => visit origin isLinked levels m scan) scan
      else return scan

/-- The number of levels that a depth reaches down. -/
def Env.levels : Depth → Nat
  | .zero => 0
  | .one => 1
  | .infinite => env.host.height

/-- Registers an unversioned resource with its subtree to a depth, and returns its record. -/
def scanUnversioned (r : Resource) (isLinked : Bool) (depth : Depth) : Action Record := do
  let scan ← visit env r isLinked (env.levels depth) r {}
  return scan.first.getD (Record.invalid r)

end Lookup
end StatusCache
