/-
# Paths of the host file system

A path keeps its bytes as they were given. What it means is its list of components: runs between
slashes, where empty runs and `.` count for nothing, except that a leading slash is the root and a
leading `.` is kept. `..` is kept too, since what it leads to is for the disk to say. Two paths are
the same, or one lies below the other, when their components say so, byte by byte: two paths that
read alike may be different ones.
-/

import StatusCache.Text.Raw

namespace StatusCache

/-- A path, as written. -/
structure Path where
  raw : Raw
deriving DecidableEq, Repr, Inhabited

namespace Path

/-- What a path reads as. -/
def text (p : Path) : String := p.raw.text

/-- A step of a path. -/
inductive Component
  | root
  /-- A leading `.`. -/
  | here
  | up
  | name (s : Raw)
deriving DecidableEq, Repr

namespace Component

/-- Where a component stands among those of other forms. -/
def rank : Component → Nat
  | .root => 0
  | .here => 1
  | .up => 2
  | .name _ => 3

/-- The bytes of a name; none for the other components. -/
def raw : Component → Raw
  | .name s => s
  | _ => ""

/-- The root stands first and `..` before every name; names stand in the order of their bytes. -/
instance : Ord Component := ⟨compareLex (compareOn rank) (compareOn raw)⟩

/-- The step that a run between slashes stands for. -/
def ofRun? (run : Raw) : Option Component :=
  if run = "" ∨ run = "." then none
  else if run = ".." then some .up
  else some (.name run)

end Component

/-- Whether a run between slashes counts for nothing. -/
def isIdle (run : Raw) : Bool := (Component.ofRun? run).isNone

/-- The runs up to the last one that counts. -/
def dropIdleEnd (runs : List Raw) : List Raw := (runs.reverse.dropWhile isIdle).reverse

/-- The runs behind the first `n` that count. -/
def dropSteps : Nat → List Raw → List Raw
  | 0, runs => runs
  | _, [] => []
  | n + 1, run :: runs => if isIdle run then dropSteps (n + 1) runs else dropSteps n runs

/-- How a path begins, and the runs behind its beginning. -/
def opening (p : Path) : Option Component × List Raw :=
  match p.raw.split with
  | [] => (none, [])
  | first :: runs =>
    if first = "" ∧ runs ≠ [] then (some .root, runs)
    else if first = "." then (some .here, runs)
    else (none, first :: runs)

/-- The path of a beginning and the runs behind it. -/
def close : Option Component → List Raw → Path
  | some .root, runs => ⟨("/" : Raw) ++ Raw.join runs⟩
  | some .here, runs => ⟨Raw.join ("." :: runs)⟩
  | _, runs => ⟨Raw.join runs⟩

/-- The steps of a path. -/
def components (p : Path) : List Component :=
  let (first, runs) := p.opening
  first.toList ++ runs.filterMap Component.ofRun?

/-- Whether two paths have the same components. -/
def same (p q : Path) : Bool := p.components = q.components

/-- Whether `p` is `base` or lies below it. -/
def startsWith (p base : Path) : Bool := base.components.isPrefixOf p.components

/-- Paths stand in the order of their components. -/
instance : Ord Path := ⟨compareOn components⟩

/-- The path without its last component, if it has one besides the root. -/
def parent? (p : Path) : Option Path :=
  let (first, runs) := p.opening
  match first, dropIdleEnd runs with
  | some .here, [] => some ⟨""⟩
  | _, [] => none
  | first, runs => some (close first (dropIdleEnd runs.dropLast))

/-- What is left of `p` below `base`, without separators at its ends; none if `p` is not there. -/
def strip? (p base : Path) : Option Raw :=
  if p.startsWith base then
    let (first, runs) := p.opening
    match base.components.length with
    | 0 => some (close first (dropIdleEnd runs)).raw
    | n + 1 =>
      let rest := dropSteps (if first.isSome then n else n + 1) runs
      some (Raw.join (dropIdleEnd (rest.dropWhile isIdle)))
  else none

/-- What is left of `p` below `base`, as it reads. -/
def below? (p base : Path) : Option String := (p.strip? base).map Raw.text

/-- A path below this one; an absolute path stands for itself. -/
def join (p : Path) (below : Raw) : Path :=
  if below.isAbsolute then ⟨below⟩
  else if p.raw.isOpen then ⟨p.raw ++ below⟩
  else ⟨p.raw ++ "/" ++ below⟩

/-- At most `n` steps up from a path, nearest first, starting with the path itself. -/
def climb : Nat → Path → List Path
  | 0, p => [p]
  | n + 1, p =>
    match p.parent? with
    | none => [p]
    | some q => p :: climb n q

/-- The path and all those above it, nearest first. -/
def ancestors (p : Path) : List Path := climb p.components.length p

end Path
end StatusCache
