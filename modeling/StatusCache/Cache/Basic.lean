/-
# The status cache

`HierarchicalCache`, section 4.2 of the svncache specification and the cache entry of its section 3.

Records are kept under their resources, and every container that has been looked into has a bucket
that lists the children with a record. An empty bucket says that the container is known to have no
children; without a bucket nothing is known. A record counts only while the bucket of its parent
lists it.
-/

import StatusCache.Status.Record
import StatusCache.Table

namespace StatusCache

/-- Records, and the children of the containers that have been looked into. -/
structure Cache where
  records : Table Resource Record := {}
  buckets : Table Resource (List Resource) := {}

namespace Cache

/-- The children that the bucket of a container lists; none without a bucket. -/
def bucket (c : Cache) (container : Resource) : List Resource :=
  (c.buckets.get? container).getD []

/-- Whether a container has been looked into. -/
def hasBucket (c : Cache) (container : Resource) : Bool := c.buckets.contains container

/-- The record of a resource that the bucket of its parent lists. -/
def get? (c : Cache) (r : Resource) : Option Record := do
  let parent ← r.parent?
  if r ∈ c.bucket parent then c.records.get? r else none

/-- Writes a record, and lists its resource in the bucket of its parent. The root has no parent and
so no record. -/
def put (c : Cache) (record : Record) : Cache :=
  match record.resource.parent? with
  | none => c
  | some parent =>
    { records := c.records.insert record.resource record
      buckets := c.buckets.insert parent ((c.bucket parent).insert record.resource) }

/-- The record of the nearest container above that has one. -/
def nearestAbove? (c : Cache) (r : Resource) : Option Record := r.ancestors.findSome? c.get?

/-- Gives a container a bucket, if it has none. -/
def ensureBucket (c : Cache) (container : Resource) : Cache :=
  if c.hasBucket container then c
  else { c with buckets := c.buckets.insert container [] }

/-- Drops the bucket of a container with the records it lists. The buckets of those children stay. -/
def removeBucket (c : Cache) (container : Resource) : Cache where
  records := c.records.filter fun r => r ∉ c.bucket container
  buckets := c.buckets.erase container

/-- The records of the children of a container that has been looked into. -/
def children? (c : Cache) (container : Resource) : Option (List Record) :=
  (c.buckets.get? container).map fun rs => rs.filterMap c.records.get?

/-- Drops the bucket of a resource and those of the containers that lie at most `levels` buckets
below it. Returns the resources that were visited, each before those below it. -/
def drop (c : Cache) : Nat → Resource → List Resource × Cache
  | 0, r => ([r], if r.isContainer then c.removeBucket r else c)
  | levels + 1, r =>
    if r.isContainer then
      let (below, c) := (c.bucket r).foldl
        (fun (visited, c) child =>
          let (more, c) := drop c levels child
          (visited ++ more, c))
        ([], c)
      (r :: below, c.removeBucket r)
    else ([r], c)

/-- The number of buckets that a depth reaches down through. No chain of buckets, each of a child
of the one before, is longer than the number of buckets. -/
def levels (c : Cache) : Depth → Nat
  | .zero => 0
  | .one => 1
  | .infinite => c.buckets.size

/-- Drops the bucket of a resource, and of what lies below it to the given depth. Returns the
resources that were visited. -/
def invalidate (c : Cache) (r : Resource) (depth : Depth) : List Resource × Cache :=
  c.drop (c.levels depth) r

/-- Drops every record and bucket of a project and what lies in it. -/
def forgetProject (c : Cache) (project : Resource) : Cache :=
  let stays (r : Resource) : Bool := r ≠ project && !project.isAncestorOf r
  let buckets := c.buckets.filter stays
  { records := c.records.filter stays
    buckets := match buckets.get? .root with
      | some rs => buckets.insert .root (rs.filter (· ≠ project))
      | none => buckets }

/-- The number of records. -/
def size (c : Cache) : Nat := c.records.size

end Cache
end StatusCache
