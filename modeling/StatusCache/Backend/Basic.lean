/-
# The version control backend

`Connector` with `status`, `info` and `get_info`, `RawStatus`, `EntryInfo`, `reorder` and
`cleanup_placeholder`; section 6 of the svncache specification.

The cache never reads a repository or a working copy itself: it asks a backend for the status of
paths and for the metadata of nodes. A backend is known only by its answers, which may depend on
everything that has been asked before.
-/

import StatusCache.Path
import StatusCache.Revision
import StatusCache.Status.Classify
import StatusCache.Status.Conflict

namespace StatusCache

/-- One node in a status answer. -/
structure Entry where
  path : Path
  kind : NodeKind
  text : EntryStatus
  prop : EntryStatus := .none
  /-- Repository URL, perhaps with percent escapes. -/
  url : Option String := none
  revision : Int := unknownRevision
  lastChanged : Int := unknownRevision
  author : Option String := none
  /-- Date of the last change, in milliseconds since the epoch. -/
  date : Int := 0
  copied : Bool := false
  switched : Bool := false
  fileExternal : Bool := false
  /-- The node is in some conflict, perhaps one that the entry does not describe. -/
  inConflict : Bool := false
  conflicts : Option (List TreeConflict) := none
  lockOwner : Option String := none
deriving DecidableEq, Repr, Inhabited

namespace Entry

/-- Stands for the content of a working copy that is locked and needs a cleanup. -/
def needsCleanup (path : Path) : Entry where
  path := path
  kind := .dir
  text := .modified
  prop := .normal
  revision := 0
  lastChanged := 0

/-- Whether two entries say the same about the same path. -/
def same (a b : Entry) : Bool := a.path.same b.path && { a with path := b.path } = b

/-- Entries in the order of their paths, a directory right before what lies in it. Entries of one
path keep their order. -/
def arrange (entries : List Entry) : List Entry :=
  entries.mergeSort fun a b => (compare a.path b.path).isLE

end Entry

/-- One node in a metadata answer. -/
structure Info where
  path : Path
  kind : NodeKind
  conflicts : Option (List TreeConflict) := none
deriving DecidableEq, Repr, Inhabited

namespace Backend

/-- How far below a path a request reaches. -/
inductive Depth
  /-- The node itself. -/
  | empty
  /-- The node and the files in it. -/
  | files
  /-- The node and its children. -/
  | immediates
  /-- The whole subtree. -/
  | infinity
deriving DecidableEq, Repr, Inhabited

/-- What a status answer is to include. -/
structure Options where
  /-- Nodes without a change. -/
  unchanged : Bool := false
  /-- Nodes ignored by the repository's own rules. -/
  ignored : Bool := false
  /-- The state of the server. -/
  server : Bool := false
deriving DecidableEq, Repr, Inhabited

/-- The number whose bits are the options. -/
def Options.bits (o : Options) : Nat := o.unchanged.toNat + 2 * o.ignored.toNat + 4 * o.server.toNat

/-- The node a metadata request is about: a working copy path, or a URL with its revisions. -/
structure Reference where
  path : String
  peg : Option Revision := none
  revision : Option Revision := none
deriving DecidableEq, Repr, Inhabited

/-- Why the backend gave no answer. -/
inductive Failure
  | cleanupRequired (path : Path)
  | notWorkingCopy (path : Path)
  | pathNotFound (path : Path)
  | cancelled
  | failed (reason : String)
deriving DecidableEq, Repr, Inhabited

/-- The wording of a failure. -/
def Failure.message : Failure → String
  | .cleanupRequired p => "Working copy at " ++ p.text ++ " is locked and needs cleanup"
  | .notWorkingCopy p => p.text ++ " is not a working copy directory"
  | .pathNotFound p => "Path not found: " ++ p.text
  | .cancelled => "Operation cancelled by the connector"
  | .failed reason => reason

/-- A request that was made. -/
inductive Call
  | status (path : Path) (depth : Depth) (options : Options)
  | info (reference : Reference) (depth : Depth)
deriving DecidableEq, Repr

end Backend

/-- A backend, by its answers. The first argument of each is the list of earlier calls, the newest
first.

There is a third request, which hands out the same metadata one node after the other. It is no field
here: unless a backend has its own way, it asks for all metadata and hands that out in order. A backend
with a way of its own may hand out some nodes and then fail. If that is a cancellation, the lookup ends,
and any other failure is passed over (`Lookup.fetchConflicts`): so this comes to a cancelled answer, or
to the answer with the nodes that were handed out. -/
structure Backend where
  status : List Backend.Call → Path → Backend.Depth → Backend.Options →
    Except Backend.Failure (List Entry)
  info : List Backend.Call → Backend.Reference → Backend.Depth →
    Except Backend.Failure (List Info)

end StatusCache
