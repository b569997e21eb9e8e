/-
# Status records

`StatusRecord`, section 3 of the svncache specification.

What the cache knows about one resource.
-/

import StatusCache.Resource
import StatusCache.Revision
import StatusCache.Status.Basic
import StatusCache.Status.Conflict
import StatusCache.Status.Mask

namespace StatusCache

/-- The status of one resource. -/
structure Record where
  resource : Resource
  text : Status
  prop : Status
  mask : Mask
  revision : Int
  baseRevision : Int
  author : Option String
  /-- Milliseconds since the epoch, 0 when unknown. -/
  date : Int
  conflict : Option TreeConflict
deriving DecidableEq, Repr, Inhabited

namespace Record

/-- A record without provenance. -/
def bare (resource : Resource) (text : Status) (mask : Mask) : Record where
  resource := resource
  text := text
  prop := .normal
  mask := mask
  revision := unknownRevision
  baseRevision := unknownRevision
  author := none
  date := 0
  conflict := none

/-- The record of a resource about which nothing can be said. -/
def invalid (resource : Resource) : Record := bare resource .internalInvalid {}

/-- The status shown for the resource. -/
def status (r : Record) : Status := Status.compound r.text r.prop

/-- Whether nothing can be said about the resource. -/
def isInvalid (r : Record) : Bool := r.text = .internalInvalid

/-- Ignored because an external definition mounts something here. -/
def isUnversionedExternal (r : Record) : Bool := r.text = .ignored && r.mask.external

/-- Ignored by a rule, and not because it lies below an opaque node. -/
def isIgnoredByRule (r : Record) : Bool := r.text = .ignored && !r.mask.forbidden

/-- The record as the cache keeps it: a status that carries no provenance has none. -/
def canonical (r : Record) : Record :=
  if r.text.lacksProvenance then
    { r with revision := unknownRevision, author := none, date := 0 }
  else r

end Record
end StatusCache
