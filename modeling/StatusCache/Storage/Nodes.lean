/-
# Repository nodes of workspace resources

`as_repository_resource`, `local_resource_for_url`, `repository_resource_for_url` and
`resolve_repository_resource` of `StatusStorage`; section 4.6 of the svncache specification.

A resource corresponds to a node of its project's repository: at its switched URL, at its place
below a switched container, or at its place below the node of its project. In the other direction a
URL leads to the resource of a project, or to a node of a location, wrapped if it is foreign.
-/

import StatusCache.Storage.Statuses

namespace StatusCache
namespace Storage

variable (env : Env)

/-- The location through which a URL is reached, wrapped if it is foreign. -/
def wrap (l : Location) (url : String) (isFile : Bool) : Action Location := do
  let (l, externals) := (← get).storage.state.externals.wrap l url isFile
  changeState fun s => { s with externals := externals }
  return l

/-- The URL by which a resource is switched: its own, or the one that it has below a switched
container. -/
def switchedUrl? (s : State) (r : Resource) : Option String :=
  match s.switched.get? r with
  | some url => some url
  | none =>
    if (s.cache.nearestAbove? r).any (·.mask.switched) then s.switched.resolve? r else none

/-- The repository node of a resource: by its switched URL, or by that of a switched container
above it, or else by its path below the node of its project. -/
def node (r : Resource) : Action RepoNode := do
  match r.project? with
  | none => throw (.notConnected r.path)
  | some project =>
    match env.host.binding? project with
    | none => throw (.notConnected project.name)
    | some binding =>
      if r = project then return binding.node
      else
        match switchedUrl? (← get).storage.state r with
        | some url =>
          let l ← wrap binding.node.location url !r.isContainer
          return ⟨l, url, r.isContainer, .head, .head⟩
        | none =>
          let url := Url.append binding.node.url r.projectPath
          return ⟨binding.node.location, url, r.isContainer, .head, .head⟩

/-- The resource of a kind at a path inside a project. -/
def resourceIn (project : Resource) (kind : Resource.Kind) (relative : String) : Resource :=
  if relative = "" then project
  else if kind.isContainer then project.folderAt relative
  else project.fileAt relative

/-- The status of the resource of a project that has a URL. -/
def statusOfUrl (project : Resource) (url : String) (kind : Resource.Kind) : Action Record := do
  match (← get).storage.state.switched.localPath? url with
  | some path => status env (resourceIn project kind (Resource.folder path).projectPath)
  | none =>
    let projectUrl := (← node env project).url
    if Url.isPrefix projectUrl url then
      status env (resourceIn project kind (Url.below projectUrl url))
    else return Record.invalid project

/-- The repository node at a URL. -/
def nodeAtUrl (l : Location) (url : String) (isFile : Bool) : Action RepoNode := do
  return ⟨← wrap l url isFile, url, !isFile, .head, .head⟩

/-- The repository node at a URL, of the kind that the backend says it has; none if that is neither
a file nor a directory. -/
def resolveUrl (l : Location) (url : String) (peg revision : Option Revision) :
    Action (Option RepoNode) := do
  let l ← wrap l url false
  let s ← get
  let reference : Backend.Reference :=
    { path := url, peg := peg.getD .head, revision := revision.getD .head }
  set { s with calls := .info reference .empty :: s.calls }
  match env.backend.info s.calls reference .empty with
  | .error failure => throw (.backend failure)
  | .ok infos =>
    match infos with
    | [] => return none
    | info :: _ =>
      match info.kind with
      | .file => return some (l.file url)
      | .dir => return some (l.container url)
      | _ => return none

end Storage
end StatusCache
