/-
# The host workspace

The trait `Workspace` and `ProjectBinding`; section 2 of the svncache specification.

The cache asks its host about resources: where they are on disk, what a container holds, which are
links, ignored, or part of working copy metadata. A host is known only by its answers.
-/

import StatusCache.Location
import StatusCache.Path
import StatusCache.Resource

namespace StatusCache

/-- How a project is attached to its repository. -/
structure Binding where
  /-- Root of the working copy on disk. -/
  location : Path
  /-- The node the project is checked out from. -/
  node : RepoNode
deriving DecidableEq, Repr, Inhabited

/-- A host, by its answers. -/
structure Host where
  /-- The binding of a project that is shared. -/
  binding? : Resource → Option Binding
  /-- Whether a project is open and its content can be read. -/
  isAccessible : Resource → Bool
  /-- Whether a resource exists on disk. -/
  isPresent : Resource → Bool
  /-- Where a resource is on disk. -/
  location? : Resource → Option Path
  /-- The existing member of a project at a path inside it, of the kind it really has. -/
  member? : Resource → String → Option Resource
  /-- The existing children of a container. -/
  members : Resource → List Resource
  /-- The resource that a path on disk belongs to; the flag says that it names a folder. -/
  resourceAt? : Path → Bool → Option Resource
  isSymlink : Resource → Bool
  /-- Whether a resource is linked into the workspace from elsewhere. -/
  isLinked : Resource → Bool
  /-- Whether a resource lies inside working copy metadata. -/
  isInternal : Resource → Bool
  isIgnored : Resource → Bool
  /-- Whether a resource is a folder for build output. -/
  isBuildOutput : Resource → Bool
  /-- No chain of members, each a member of the one before, is longer than this. -/
  height : Nat

end StatusCache
