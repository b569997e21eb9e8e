/-
# Switched subtrees

`SwitchedIndex` with `resolve` and `local_path_for_url`; the switched-URL index in section 3 of the
svncache specification.

A subtree of a working copy may be switched to a URL of its own. The index maps workspace paths to
those URLs and answers in both directions: the URL of a resource below a switched one, and the
workspace path of a URL below a switched one.
-/

import StatusCache.Resource
import StatusCache.Table
import StatusCache.Url

namespace StatusCache

/-- URLs of switched subtrees, by the workspace path of their root. -/
structure Switched where
  urls : Table String String := {}

namespace Switched

/-- Enters the URL that a resource is switched to. -/
def insert (s : Switched) (r : Resource) (url : String) : Switched := ⟨s.urls.insert r.path url⟩

/-- Drops the entry of a resource. -/
def remove (s : Switched) (r : Resource) : Switched := ⟨s.urls.erase r.path⟩

/-- The URL that a resource itself is switched to. -/
def get? (s : Switched) (r : Resource) : Option String := s.urls.get? r.path

/-- The URL of a resource by the nearest switched resource at or above it. -/
def resolve? (s : Switched) (r : Resource) : Option String :=
  match s.get? r with
  | some url => some url
  | none =>
    match r.ancestors.find? fun above => (s.get? above).isSome with
    | none => none
    | some above => do
      return Url.append (← s.get? above) (← r.relativeTo? above)

/-- The workspace path of a URL: below the switched subtree with the longest URL around it. Among
subtrees switched to URLs of one length the last path counts. -/
def localPath? (s : Switched) (url : String) : Option String :=
  let around := s.urls.entries.filter fun (_, switched) => Url.isPrefix switched url
  let ordered := around.mergeSort fun (p, _) (q, _) => (compare p q).isLE
  let longest := ordered.foldl
    (fun (best : Option (String × String)) e =>
      match best with
      | some b => if b.2.utf8ByteSize ≤ e.2.utf8ByteSize then some e else some b
      | none => some e)
    none
  longest.map fun (path, switched) =>
    let below := Url.below switched url
    if below = "" then path else path ++ "/" ++ below

/-- Drops the entries of a project and of what lies in it. -/
def forgetProject (s : Switched) (project : Resource) : Switched :=
  ⟨s.urls.filter fun path =>
    path ≠ project.path && !(project.path ++ "/").toList.isPrefixOf path.toList⟩

/-- How many resources have an entry. -/
def size (s : Switched) : Nat := s.urls.size

end Switched
end StatusCache
