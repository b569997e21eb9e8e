/-
# Workspace resources

`Resource`, `ResourceKind`, `Depth` and `shrink_child_nodes` of the component `resource`.

A resource is a place in the workspace: the root, a project directly below it, or a folder or file
inside a project. It is named by the segments of its path together with its kind, so a file and a
folder at the same path are different resources. Nothing here asks whether the place exists.

Constructors drop empty segments, and a container named by a single segment is always a project. A
project takes its name as it is given, apart from slashes at the ends.
-/

import StatusCache.Text.Segments

namespace StatusCache

/-- How far below a resource an operation reaches. -/
inductive Depth
  /-- The resource itself. -/
  | zero
  /-- The resource and its children. -/
  | one
  /-- The whole subtree. -/
  | infinite
deriving DecidableEq, Repr, Inhabited

/-- The depth that is left one level further down. -/
def Depth.below : Depth → Depth
  | .zero => .zero
  | .one => .zero
  | .infinite => .infinite

/-- What stands at a place. -/
inductive Resource.Kind
  | file
  | folder
  | project
  | root
deriving DecidableEq, Repr, Inhabited

/-- Everything but a file can have children. -/
def Resource.Kind.isContainer : Resource.Kind → Bool
  | .file => false
  | _ => true

/-- Place of the kind among resources of one path. -/
def Resource.Kind.rank : Resource.Kind → Nat
  | .file => 0
  | .folder => 1
  | .project => 2
  | .root => 3

/-- A place in the workspace. -/
structure Resource where
  segments : List String
  kind : Resource.Kind
deriving DecidableEq, Repr, Inhabited

namespace Resource

/-- The nonempty segments of a path. -/
def pathNames (path : String) : List String := (Text.split '/' path).filter (· ≠ "")

/-- The workspace root. -/
def root : Resource := ⟨[], .root⟩

/-- A project of the given name. -/
def project (name : String) : Resource := ⟨Text.split '/' (Text.trim '/' name), .project⟩

/-- The resource that a list of nonempty segments names: the root if there are none, a project if
a container has only one. -/
def ofNames (names : List String) (kind : Kind) : Resource :=
  match names with
  | [] => root
  | [name] => ⟨[name], if kind.isContainer then .project else .file⟩
  | names => ⟨names, if kind.isContainer then .folder else .file⟩

/-- The resource of a kind at a workspace path. -/
def ofPath (path : String) (kind : Kind) : Resource := ofNames (pathNames path) kind

/-- The folder at a workspace path. -/
def folder (path : String) : Resource := ofPath path .folder

/-- The file at a workspace path. -/
def file (path : String) : Resource := ofPath path .file

/-- The workspace path: every segment behind a slash, and a lone slash for the root. -/
def path (r : Resource) : String := "/" ++ Text.join '/' r.segments

/-- Whether a resource may hold others. -/
def isContainer (r : Resource) : Bool := r.kind.isContainer

/-- The last segment; empty for the root. -/
def name (r : Resource) : String := r.segments.getLastD ""

/-- The nonempty segments. -/
def names (r : Resource) : List String := r.segments.filter (· ≠ "")

/-- The container with the given segments, innermost first. -/
def enclosing (inner : List String) : Resource := ofNames inner.reverse .folder

/-- The containers with the given segments, innermost first, and with ever fewer of them, up to
the root. -/
def enclosingAll : List String → List Resource
  | [] => [root]
  | s :: outer => enclosing (s :: outer) :: enclosingAll outer

/-- The container directly above; only the root has none. -/
def parent? (r : Resource) : Option Resource :=
  match r.kind with
  | .root => none
  | .project => some root
  | _ => some (ofNames (r.segments.dropLast.filter (· ≠ "")) .folder)

/-- All containers above, nearest first. -/
def ancestors (r : Resource) : List Resource :=
  match r.kind with
  | .root => []
  | .project => [root]
  | _ => enclosingAll (r.segments.dropLast.filter (· ≠ "")).reverse

/-- The project a resource belongs to; none for the root. -/
def project? (r : Resource) : Option Resource := r.names.head?.map project

/-- The path inside the project; empty for the project itself. -/
def projectPath (r : Resource) : String := Text.join '/' (r.names.drop 1)

/-- Whether `r` is a strict ancestor of `s`. The root is above every other resource. -/
def isAncestorOf (r s : Resource) : Bool :=
  match r.kind with
  | .root => s.kind ≠ .root
  | _ => r.segments.isPrefixOf s.segments && r.segments.length < s.segments.length

/-- The path of `r` below `above`, without a leading slash; none if `r` is not there. -/
def relativeTo? (r above : Resource) : Option String :=
  if r.path = above.path then some ""
  else if above.isAncestorOf r then some (Text.join '/' (r.names.drop above.names.length))
  else none

/-- The container at a path below this one. -/
def folderAt (r : Resource) (relative : String) : Resource :=
  match pathNames relative with
  | [] => r
  | below => ofNames (r.names ++ below) .folder

/-- The file at a path below this container. -/
def fileAt (r : Resource) (relative : String) : Resource :=
  ofNames (r.names ++ pathNames relative) .file

/-- Resources stand in the order of their paths, and those of one path in the order of kinds. -/
instance : Ord Resource :=
  ⟨compareLex (compareOn path) (compareOn fun r => r.kind.rank)⟩

/-- Resources in order, each as often as it is given. -/
def sort (rs : List Resource) : List Resource := rs.mergeSort fun r s => (compare r s).isLE

/-- The resources without those that have an ancestor among them, each once. -/
def topmost (rs : List Resource) : List Resource :=
  (rs.filter fun r => !rs.any (·.isAncestorOf r)).eraseDups

/-- The kinds as messages name them. -/
def Kind.label : Kind → String
  | .file => "File"
  | .folder => "Folder"
  | .project => "Project"
  | .root => "Root"

/-- Kind and path. -/
def label (r : Resource) : String := r.kind.label ++ "(" ++ r.path ++ ")"

end Resource

end StatusCache
