/-
# Repository locations and nodes

`RepositoryLocation` with `wrap` and `contains_url`, `RepositoryResource` and `RootKind` of the
component `repository`.

A location is a repository as the user configured it, by its own URL and the URL of the repository
root. A URL outside that root is reached through a wrapper: a location with the same identifier
whose URL and root are the foreign URL. A node is a file or directory of a location at a revision.
-/

import StatusCache.Revision
import StatusCache.Url

namespace StatusCache

/-- A configured repository, or a wrapper for a foreign root. -/
structure Location where
  id : String
  url : String
  /-- URL of the repository root; may be empty when unknown. -/
  root : String
  /-- Whether this wraps a root outside the configured one. -/
  wrapped : Bool := false
deriving DecidableEq, Repr, Inhabited

/-- A file or directory of a repository. -/
structure RepoNode where
  location : Location
  url : String
  isContainer : Bool
  /-- Revision in which the URL names the node. -/
  peg : Revision := .head
  /-- Revision of the content. -/
  selected : Revision := .head
deriving DecidableEq, Repr, Inhabited

namespace Location

/-- A location of the same identifier around a foreign URL. -/
def wrap (l : Location) (url : String) : Location := ⟨l.id, url, url, true⟩

/-- The root that URLs are held against: the repository root, or the location itself when the root
is unknown. -/
def base (l : Location) : String := if l.root = "" then l.url else l.root

/-- Whether a URL lies under the repository root. -/
def containsUrl (l : Location) (url : String) : Bool := l.base ≠ "" && Url.isPrefix l.base url

/-- The directory of a location at a URL. -/
def container (l : Location) (url : String) : RepoNode := ⟨l, url, true, .head, .head⟩

/-- The file of a location at a URL. -/
def file (l : Location) (url : String) : RepoNode := ⟨l, url, false, .head, .head⟩

end Location

/-- The last segment of the URL. -/
def RepoNode.name (n : RepoNode) : String :=
  (Text.split '/' (Text.trimEnd '/' n.url)).getLastD ""

/-- What a persisted relative URL hangs off. -/
inductive RootKind
  | repositoryRoot
  | locationRoot
  | trunk
  | branches
  | tags
deriving DecidableEq, Repr, Inhabited

namespace RootKind

/-- The persisted number of a kind of root. -/
def id : RootKind → Nat
  | .repositoryRoot => 0
  | .locationRoot => 1
  | .trunk => 2
  | .branches => 3
  | .tags => 4

/-- The kind of root a persisted number stands for. -/
def ofId? : Int → Option RootKind
  | 0 => some .repositoryRoot
  | 1 => some .locationRoot
  | 2 => some .trunk
  | 3 => some .branches
  | 4 => some .tags
  | _ => none

/-- The URL that relative URLs of this kind hang off. Locations have no layout of trunk, branches
and tags, so those stand for the location itself. -/
def url (kind : RootKind) (l : Location) : String :=
  if kind = .repositoryRoot ∧ l.root ≠ "" then l.root else l.url

end RootKind
end StatusCache
