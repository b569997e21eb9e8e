/-
# A checked-out project

The examples are about one workspace: a single project `p`, checked out at `wc` from the folder
`trunk` of a repository, and nothing linked (`Checkout.workspace`). They vary what else is on the disk
and what the backend answers. Whatever that is, the host is faithful to the project, so that general
results apply.
-/

import StatusCache.Backend.Fixed
import StatusCache.Proofs.Host
import StatusCache.Proofs.Location
import StatusCache.Storage.Basic

namespace StatusCache
namespace Checkout

/-! ### What is checked out -/

/-- The folder of the repository. -/
def trunk : RepoNode where
  location := { id := "main", url := "http://h/r", root := "http://h/r" }
  url := "http://h/r/trunk"
  isContainer := true

/-- The project whose working copy it is. -/
def project : Resource := .project "p"

/-- The workspace with the project. -/
def workspace : Workspace where
  projects := ⟨[("p", { location := ⟨"wc"⟩, node := some trunk })]⟩
  metadata := ".svn"

/-- A disk with the working copy, and some more nodes. -/
def disk (nodes : List (Disk.Place × Disk.Node)) : Disk :=
  { nodes := ⟨(["wc"], .dir 0) :: (["wc", ".svn"], .dir 0) :: nodes⟩ }

/-- A folder at a path, unmodified at a URL. -/
def folder (path url : String) : Entry :=
  { path := ⟨path⟩, kind := .dir, text := .normal, url := some url }

/-- The working copy itself, as the backend reports it. -/
def root : Entry := folder "wc" trunk.url

variable (nodes : List (Disk.Place × Disk.Node)) (known : Backend.Fixed)

/-- The surroundings of a storage. -/
def env : Storage.Env where
  backend := known.backend
  host := workspace.host (disk nodes)
  disk := disk nodes
  now := 0

/-- A storage that nothing was asked for. -/
def start : Storage.Session := { storage := .make {} 0 }

/-- The surroundings of a single lookup. -/
def lookupEnv : Lookup.Env where
  backend := known.backend
  host := workspace.host (disk nodes)
  disk := disk nodes
  options := { metadata := ".svn" }

/-- Nothing is cached, and nothing was asked for. -/
def world : Lookup.World := { state := { monitor := { lastCheck := 0 } } }

/-- The answer to a request for the project. -/
def batch (entries : List Entry) : Lookup.Batch where
  resource := project
  target := project
  entries := entries
  desiredUrl := trunk.url
  root := ⟨"wc"⟩
  requested := ⟨"wc"⟩

/-- A folder of the project. -/
def linked : Resource := .folder "/p/a"

/-- The surroundings of a single lookup, where the folder is linked to another place in the working
copy. -/
def linkedEnv : Lookup.Env :=
  { lookupEnv nodes known with host := (workspace.link linked ⟨"wc/z"⟩).host (disk nodes) }

/-- The answer to a request for the linked folder. -/
def linkedBatch (entries : List Entry) : Lookup.Batch where
  resource := linked
  target := linked
  entries := entries
  desiredUrl := "http://h/r/trunk/a"
  root := ⟨"wc"⟩
  requested := ⟨"wc/z"⟩

/-! ### What holds on every disk -/

/-- What lies in the project goes by its names, whatever is on the disk. -/
theorem faithful (d : Disk) : (workspace.host d).Faithful project :=
  workspace.faithful_host d fun p hp => by
    obtain rfl := Option.some.inj hp
    decide

/-- On a disk with proper names the project is not inside of itself. -/
theorem not_holds_project {d : Disk} (hd : d.Named) (isOpen : Bool) :
    ¬((workspace.setOpen project isOpen).host d).Holds project project :=
  (workspace.setOpen project isOpen).not_holds_self hd
    (Resource.Built.project (by decide : "p" ≠ "") (by decide)).wellFormed (by decide)

end Checkout
end StatusCache
