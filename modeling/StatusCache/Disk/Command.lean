/-
# Changing the disk

Commands that make, fill, date and remove nodes. Directories on the way to a new node are made as
needed. A command that cannot be carried out leaves the disk as it was from there on.
-/

import StatusCache.Disk.Basic

namespace StatusCache
namespace Disk

/-- A change to the disk. -/
inductive Command
  /-- A directory, with those above it. -/
  | makeDir (path : Path)
  | write (path : Path) (content : List UInt8)
  | link (path : Path) (target : Raw)
  /-- A file with a time of modification, in seconds since the epoch; made empty if need be. -/
  | touch (path : Path) (seconds : Int)
  /-- A file, a link, or a directory with all that is in it. -/
  | remove (path : Path)
deriving Repr

/-- Puts a node at a place. -/
def put (d : Disk) (place : Place) (node : Node) : Disk := ⟨d.nodes.insert place node⟩

/-- Makes the directory at a path whose parent is there. -/
def makeDir (d : Disk) (now : Int) (p : Path) : Except Fault Disk :=
  if d.isDir p ∨ p.raw = "" then .ok d
  else
    match d.find false p with
    | .ok (place, none) => .ok (d.put place (.dir now))
    | .ok _ => .error .notDirectory
    | .error fault => .error fault

/-- Makes the directory at a path and those above it. -/
def makeDirs (d : Disk) (now : Int) (p : Path) : Except Fault Disk :=
  p.ancestors.reverse.foldlM (makeDir · now) d

/-- Makes the directories above a path. -/
def makeParents (d : Disk) (now : Int) (p : Path) : Except Fault Disk :=
  match p.parent? with
  | some above => d.makeDirs now above
  | none => .ok d

/-- Fills the file at a path. -/
def write (d : Disk) (now : Int) (p : Path) (content : List UInt8) : Except Fault Disk :=
  match d.find true p with
  | .ok (_, some (.dir _)) => .error .notDirectory
  | .ok (place, _) =>
    if p.raw.bytes.getLast? = some Raw.slash then .error .notDirectory
    else .ok (d.put place (.file content now))
  | .error fault => .error fault

/-- The content of the file at a path. -/
def content? (d : Disk) (p : Path) : Option (List UInt8) :=
  match d.read p with
  | .ok (.file content _) => some content
  | _ => none

/-- Carries a command out at a given time. -/
def run? (d : Disk) (now : Int) : Command → Except Fault Disk
  | .makeDir p => d.makeDirs now p
  | .write p content => do
    let d ← d.makeParents now p
    d.write now p content
  | .link p target => do
    let d ← d.makeParents now p
    match ← d.find false p with
    | (place, none) => return d.put place (.link target)
    | _ => .error .notDirectory
  | .touch p seconds => do
    let d ← d.makeParents now p
    d.write (seconds * 1000) p []
  | .remove p =>
    match d.find false p with
    | .ok (place, _) => .ok ⟨d.nodes.filter fun k => !place.isPrefixOf k⟩
    | .error fault => .error fault

/-- Carries a command out, if it can be. -/
def run (d : Disk) (now : Int) (c : Command) : Disk :=
  match d.run? now c with
  | .ok d => d
  | .error _ => d

end Disk
end StatusCache
