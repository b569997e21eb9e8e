/-
# A workspace of directories

`FsWorkspace`, the `Workspace` that reads directories.

Projects are directories registered by name; what they contain comes straight from the disk. A
resource may be linked to a place outside its project, and then everything below it is there too.
Ignore patterns are held against a resource's name and against its path inside the project.
-/

import StatusCache.Disk.Metadata
import StatusCache.Error
import StatusCache.Glob.Basic
import StatusCache.Host
import StatusCache.Table

namespace StatusCache

/-- A registered project. -/
structure Workspace.Project where
  location : Path
  /-- The node it is checked out from, if it is shared. -/
  node : Option RepoNode
  isOpen : Bool := true
deriving Repr

/-- What is registered in a workspace. -/
structure Workspace where
  projects : Table String Workspace.Project := {}
  links : Table Resource Path := {}
  /-- Name of the metadata directories of working copies. -/
  metadata : String
  ignored : List Glob := []
  /-- Paths of build output folders inside their projects. -/
  outputs : List String := []

namespace Workspace

/-- An empty workspace with the given rules; the first pattern that is none is an error. -/
def make (metadata : String) (ignored outputs : List String) : Except Error Workspace := do
  let globs ← ignored.mapM fun pattern =>
    match Glob.parse? pattern with
    | some g => .ok g
    | none => .error (.ignorePattern pattern)
  return { metadata := metadata, ignored := globs, outputs := outputs.map (Text.trim '/') }

/-- Registers a project, open, in place of one of the same name. -/
def addProject (w : Workspace) (name : String) (location : Path) (node : Option RepoNode) :
    Workspace :=
  { w with projects := w.projects.insert name { location := location, node := node } }

/-- Removes a project and the links inside it. -/
def removeProject (w : Workspace) (project : Resource) : Workspace :=
  { w with
    projects := w.projects.erase project.name
    links := w.links.filter fun r => r ≠ project && !project.isAncestorOf r }

/-- Opens or closes a project. -/
def setOpen (w : Workspace) (project : Resource) (isOpen : Bool) : Workspace :=
  match w.projects.get? project.name with
  | some p => { w with projects := w.projects.insert project.name { p with isOpen := isOpen } }
  | none => w

/-- Links a resource to a place outside its project. -/
def link (w : Workspace) (r : Resource) (target : Path) : Workspace :=
  { w with links := w.links.insert r target }

/-- The registered project of a resource's name. -/
def project? (w : Workspace) (project : Resource) : Option Project := w.projects.get? project.name

/-- The nearest linked resource at or above this one, with its target. -/
def linkAbove? (w : Workspace) (r : Resource) : Option (Resource × Path) :=
  (r :: r.ancestors).findSome? fun above => (w.links.get? above).map fun target => (above, target)

/-- The place on disk of a path below a location. -/
def placeBelow (location : Path) (relative : String) : Path :=
  if relative = "" then location else location.join relative

/-- Where a resource is on disk: below the target of its link, or below its project. -/
def location? (w : Workspace) (r : Resource) : Option Path :=
  match w.linkAbove? r with
  | some (above, target) => (r.relativeTo? above).map (placeBelow target)
  | none => do
    let p ← w.project? (← r.project?)
    return placeBelow p.location r.projectPath

/-- The existing member of a project at a path inside it. -/
def member? (w : Workspace) (d : Disk) (project : Resource) (relative : String) :
    Option Resource :=
  let relative := Text.trim '/' relative
  if relative = "" then (w.project? project).map fun _ => project
  else do
    let folder := project.folderAt relative
    let path ← w.location? folder
    match d.read path with
    | .ok (.dir _) => some folder
    | .ok _ => some (project.fileAt relative)
    | .error _ => none

/-- The children of a container, in order: the projects of the root, and otherwise what the disk
lists, metadata directories left out. -/
def members (w : Workspace) (d : Disk) (container : Resource) : List Resource :=
  if container.kind = .root then Resource.sort (w.projects.keys.map Resource.project)
  else
    match w.location? container with
    | none => []
    | some path =>
      let names := ((d.list? path).getD []).filter (· ≠ Raw.ofText w.metadata)
      Resource.sort (names.map fun name =>
        if d.isDir (path.join name) then container.folderAt name.text
        else container.fileAt name.text)

/-- The resource that a path belongs to: that of the project with the deepest location around it.
Backslashes count as slashes. -/
def resourceAt? (w : Workspace) (path : Path) (isFolder : Bool) : Option Resource := do
  let around := w.projects.entries.filter fun (_, p) => path.startsWith p.location
  let depth (p : Project) := p.location.components.length
  let (name, p) ← around.find? fun (_, p) => around.all fun (_, q) => depth q ≤ depth p
  let project := Resource.project name
  let relative := Text.replace '\\' '/' (← path.below? p.location)
  return if relative = "" then project
    else if isFolder then project.folderAt relative
    else project.fileAt relative

/-- Whether what the disk has at a resource's place is of its kind. -/
def isPresent (w : Workspace) (d : Disk) (r : Resource) : Bool :=
  r.kind = .root ||
    match (w.location? r).map d.read with
    | some (.ok (.dir _)) => r.isContainer
    | some (.ok _) => !r.isContainer
    | _ => false

/-- The workspace as a host, over a disk. -/
def host (w : Workspace) (d : Disk) : Host where
  binding? project := do
    let p ← w.project? project
    return { location := p.location, node := ← p.node }
  isAccessible project := (w.project? project).any fun p => p.isOpen && d.isDir p.location
  isPresent := w.isPresent d
  location? := w.location?
  member? := w.member? d
  members := w.members d
  resourceAt? := w.resourceAt?
  isSymlink r := (w.location? r).any d.isLink
  isLinked r := (w.linkAbove? r).isSome
  isInternal r := r.names.any (· = w.metadata)
  isIgnored r := w.ignored.any fun g => g.covers r.name || g.covers r.projectPath
  isBuildOutput r := r.isContainer && w.outputs.any (· = r.projectPath)
  -- Every link on a chain of members starts with a new path.
  height := (w.links.size + 1) * Disk.height

end Workspace
end StatusCache
