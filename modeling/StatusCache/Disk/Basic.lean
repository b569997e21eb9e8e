/-
# The host's disk

A disk is a finite set of nodes below the current directory, each a directory, a file with its
content or a symbolic link, under the names that lead to it. Reading a path walks from directory to
directory, stepping up at `..` and following at most forty links; a link at the end of a path is
followed unless the reader asks about the link itself. Outside the current directory there are only
the directories above it and the root of the disk, both without anything else in them.
-/

import StatusCache.Path
import StatusCache.Table
import StatusCache.Text.Utf8

namespace StatusCache

/-- A node of the disk. Times of modification are in milliseconds since the epoch. -/
inductive Disk.Node
  | dir (modified : Int)
  | file (content : List UInt8) (modified : Int)
  | link (target : Raw)
deriving DecidableEq, Repr

/-- The names that lead from the current directory to a node, through no link. -/
abbrev Disk.Place := List Raw

/-- The nodes below the current directory. -/
structure Disk where
  nodes : Table Disk.Place Disk.Node := {}

namespace Disk

/-- Why a path could not be read. -/
inductive Fault
  | absent
  | notDirectory
  | tooManyLinks
  /-- This cannot be a path: it is too long, or holds a zero byte. -/
  | unusable
deriving DecidableEq, Repr

/-- The root of the disk. -/
def top : Place := ["/"]

/-- The node at a place. The current directory, those above it and the root always exist. -/
def node? (d : Disk) (place : Place) : Option Node :=
  if place.all (· = "..") ∨ place = top then some (.dir 0) else d.nodes.get? place

/-- The directory that holds a place. -/
def outer (place : Place) : Place :=
  if place = top then top
  else if place.all (· = "..") then place ++ [(".." : Raw)]
  else place.dropLast

/-- Where a walk ended, and what is there. -/
abbrev Landing := Place × Option Node

/-- Whether a run between slashes leads nowhere else. -/
def stays (run : Raw) : Bool := run = "" || run = "."

/-- Walks along the runs of a path. A link in the way, or at the end when links are followed, is
handed to `jump` with its target and the runs that are still to walk. -/
def walkRuns (d : Disk) (follow : Bool)
    (jump : Place → Raw → List Raw → Except Fault Landing) :
    Place → List Raw → Except Fault Landing
  | place, [] => .ok (place, d.node? place)
  | place, run :: rest =>
    if stays run then walkRuns d follow jump place rest
    else if run = ".." then walkRuns d follow jump (outer place) rest
    else if run.bytes.length > 255 then .error .unusable
    else
      let next := place ++ [run]
      match d.node? next with
      | none => if rest.all stays then .ok (next, none) else .error .absent
      | some (.dir _) => walkRuns d follow jump next rest
      | some (.file content modified) =>
        if rest.isEmpty then .ok (next, some (.file content modified)) else .error .notDirectory
      | some (.link target) =>
        if rest.isEmpty && !follow then .ok (next, some (.link target))
        else jump place target rest

/-- Walks along the runs of a path, following at most the given number of links. -/
def walk (d : Disk) (follow : Bool) : Nat → Place → List Raw → Except Fault Landing
  | 0 => walkRuns d follow fun _ _ _ => .error .tooManyLinks
  | links + 1 => walkRuns d follow fun place target rest =>
    walk d follow links (if target.isAbsolute then top else place) (target.split ++ rest)

/-- Where a path leads. -/
def find (d : Disk) (follow : Bool) (p : Path) : Except Fault Landing :=
  if p.raw = "" then .error .absent
  else if p.raw.bytes.contains 0 ∨ p.raw.bytes.length > 4095 then .error .unusable
  else d.walk follow 40 (if p.raw.isAbsolute then top else []) p.raw.split

/-- The node a path leads to; a link at its end is followed. -/
def read (d : Disk) (p : Path) : Except Fault Node :=
  match d.find true p with
  | .ok (_, some node) => .ok node
  | .ok (_, none) => .error .absent
  | .error fault => .error fault

/-- The node a path leads to, be it a link. -/
def readLink (d : Disk) (p : Path) : Except Fault Node :=
  match d.find false p with
  | .ok (_, some node) => .ok node
  | .ok (_, none) => .error .absent
  | .error fault => .error fault

/-- Whether the path leads to a directory. -/
def isDir (d : Disk) (p : Path) : Bool :=
  match d.read p with
  | .ok (.dir _) => true
  | _ => false

/-- Whether the path leads to a file. -/
def isFile (d : Disk) (p : Path) : Bool :=
  match d.read p with
  | .ok (.file ..) => true
  | _ => false

/-- Whether the path leads to a node. -/
def isPresent (d : Disk) (p : Path) : Bool := (d.read p).isOk

/-- Whether something stands at the path, be it a link that leads nowhere. -/
def isOccupied (d : Disk) (p : Path) : Bool := (d.readLink p).isOk

/-- Whether a link stands at the path. -/
def isLink (d : Disk) (p : Path) : Bool :=
  match d.readLink p with
  | .ok (.link _) => true
  | _ => false

/-- When the node at the path was modified, if there is one. -/
def modified? (d : Disk) (p : Path) : Option Int :=
  match d.read p with
  | .ok (.dir time) => some time
  | .ok (.file _ time) => some time
  | _ => none

/-- The names in the directory at a path. -/
def list? (d : Disk) (p : Path) : Option (List Raw) :=
  match d.find true p with
  | .ok (place, some (.dir _)) =>
    some (d.nodes.keys.filterMap fun k =>
      if k.dropLast = place ∧ k ≠ [] then k.getLast? else none)
  | _ => none

/-- No chain of directory entries, each in the one before, is longer than this: the paths on it are
ever longer, and none of more than 4095 bytes is read. -/
def height : Nat := 4097

end Disk
end StatusCache
