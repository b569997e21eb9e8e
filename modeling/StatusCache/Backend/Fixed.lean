/-
# A backend with fixed answers

A `Connector` that answers from a table.

Answers are looked up by the text of the path. Where no answer is given for a path, a status
request selects from a list of entries the ones that lie within its depth, in the order given; a
path with no entry in reach is no working copy. Nodes without metadata have none.
-/

import StatusCache.Backend.Basic

namespace StatusCache
namespace Backend

/-- What a backend with fixed answers knows. -/
structure Fixed where
  entries : List Entry := []
  status : List (String × Except Failure (List Entry)) := []
  info : List (String × Except Failure (List Info)) := []

namespace Fixed

/-- Whether a request for `path` reaches an entry. -/
def reaches (path : Path) (depth : Depth) (e : Entry) : Bool :=
  let isChild := e.path.parent?.any (·.same path)
  match depth with
  | .empty => e.path.same path
  | .files => e.path.same path || (isChild && e.kind = .file)
  | .immediates => e.path.same path || isChild
  | .infinity => e.path.startsWith path

/-- The entries within reach of a request. -/
def statusOf (known : Fixed) (path : Path) (depth : Depth) : Except Failure (List Entry) :=
  match known.status.lookup path.text with
  | some answer => answer
  | none =>
    match known.entries.filter (reaches path depth) with
    | [] => .error (.notWorkingCopy path)
    | found => .ok found

/-- The backend that gives these answers whenever it is asked. -/
def backend (known : Fixed) : Backend where
  status _ path depth _ := known.statusOf path depth
  info _ reference _ := (known.info.lookup reference.path).getD (.ok [])

end Fixed
end Backend
end StatusCache
