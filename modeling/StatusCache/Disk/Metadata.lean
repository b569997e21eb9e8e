/-
# Working copy metadata

The probes `has_svn_meta`, `contains_svn_meta_in_children`, `find_wc_db` and `file_exists` of the
component `wc`.

The root of a working copy holds a metadata directory with the database `wc.db` in it. Working
copies may be nested: an external definition mounts one inside another.
-/

import StatusCache.Disk.Basic

namespace StatusCache
namespace Disk

/-- Whether a directory has its own metadata directory. -/
def hasMetadata (d : Disk) (metadata : String) (dir : Path) : Bool := d.isDir (dir.join metadata)

/-- The first subdirectory of a directory in the order of names, links and metadata left out. -/
def firstSubdirectory? (d : Disk) (metadata : String) (dir : Path) : Option Path :=
  let names := (d.list? dir).getD []
  let dirs := (names.filter (· ≠ Raw.ofText metadata)).map dir.join |>.filter fun p =>
    match d.readLink p with
    | .ok (.dir _) => true
    | _ => false
  (dirs.mergeSort fun p q => (compare p q).isLE).head?

/-- Follows first subdirectories downwards, at most `n` of them, to one that has metadata. -/
def chainHasMetadata (d : Disk) (metadata : String) : Nat → Path → Bool
  | 0, _ => false
  | n + 1, dir =>
    match d.firstSubdirectory? metadata dir with
    | none => false
    | some sub => d.hasMetadata metadata sub || d.chainHasMetadata metadata n sub

/-- Whether a working copy is nested below a directory. Externals are usually mounted through a
chain of otherwise empty folders, so only first subdirectories are looked into. -/
def nestsMetadata (d : Disk) (metadata : String) (dir : Path) : Bool :=
  d.chainHasMetadata metadata (d.nodes.size + 1) dir

/-- The database that governs a directory: the nearest one in it or above. -/
def database? (d : Disk) (metadata : String) (dir : Path) : Option Path :=
  dir.ancestors.map (fun above => (above.join metadata).join "wc.db") |>.find? d.isFile

end Disk
end StatusCache
