/-
# What an entry is about

A batch takes each of its entries to be about a resource (`Batch.finding`): the requested one, or
what the host has at the path of the entry, or what the kind of the entry makes of that path
(`finding_cases`). Conflicts make no difference there. Whether the entry is about anything is settled
once its conflicts are known (`Batch.settled?`), and all that is asked meanwhile is for conflicts
(`settle_eq`).
-/

import StatusCache.Lookup.Basic

namespace StatusCache

namespace Lookup

variable {env : Env} {batch : Batch} {project : Resource} {e : Entry}

/-- The path of an entry inside the project, as far as it leads below the working copy. -/
def Batch.relative (batch : Batch) (e : Entry) : String :=
  Text.replace '\\' '/' ((e.path.below? batch.root).getD "")

/-- What a batch takes an entry to be about. -/
def Batch.finding (batch : Batch) (env : Env) (project : Resource) (e : Entry) : Finding :=
  locate env batch project e (diskKind env.disk e.path e.kind) (batch.relative e)

/-- Whether an entry of a kind is about the requested resource. -/
def Batch.requests (batch : Batch) (e : Entry) (kind : NodeKind) : Bool :=
  e.path.same batch.requested && (batch.resource.kind = .project || batch.resource.kind = .root ||
    kindMatches batch.resource.kind kind)

/-- **The resource of an entry**: the requested one at the requested place, if the kinds allow it, or
else what the host or the kind gives at the path inside the project. The kind of a symlink is that
of the resource at the path. -/
theorem finding_cases (env : Env) (batch : Batch) (project : Resource) (e : Entry) :
    ∃ r, (env.host.member? project (batch.relative e) = some r ∨
        env.host.member? project (batch.relative e) = none ∧
          (r = project.folderAt (batch.relative e) ∨ r = project.fileAt (batch.relative e))) ∧
      ((batch.finding env project e).isSymlink →
        (batch.finding env project e).kind = if r.isContainer then .dir else .file) ∧
      (batch.finding env project e).resource =
        if batch.requests e (batch.finding env project e).kind then batch.resource else r := by
  unfold Batch.finding locate Batch.requests
  generalize batch.relative e = relative
  generalize diskKind env.disk e.path e.kind = kind
  simp only
  refine ⟨_, ?_, ?_, rfl⟩
  · cases env.host.member? project relative with
    | some m => exact .inl rfl
    | none =>
      refine .inr ⟨rfl, ?_⟩
      rw [Option.getD_none]
      split
      · exact .inl rfl
      · exact .inr rfl
  · exact fun hsymlink => if_pos hsymlink

/-- A node has no kind if none is reported and nothing is on disk. -/
theorem diskKind_eq_none {d : Disk} {path : Path} {reported : NodeKind} :
    diskKind d path reported = .none ↔
      (reported = .none ∨ reported = .unknown) ∧ d.isOccupied path = false := by
  unfold diskKind Disk.isOccupied
  cases hread : d.readLink path with
  | error fault => cases reported <;> simp [Except.isOk, Except.toBool]
  | ok node => cases reported <;> cases node <;> simp [Except.isOk, Except.toBool]

/-- What an entry is settled to be about once it is known which conflicts are described for it. -/
def Batch.settled? (batch : Batch) (env : Env) (project : Resource) (isFirst : Bool) (e : Entry)
    (conflicts : Option (List TreeConflict)) : Option Finding :=
  if diskKind env.disk e.path e.kind = .none && conflicts.isNone then none
  else if !isFirst && batch.relative e = "" then none
  else some { batch.finding env project e with entry := { e with conflicts := conflicts } }

/-- Settling an entry may ask for conflicts; what the entry is about follows from the answer. -/
theorem settle_eq {isFirst : Bool} : settle env batch project isFirst e =
    if (e.conflicts.filter (· ≠ [])).isNone &&
      (e.inConflict || diskKind env.disk e.path e.kind = .none) then do
      return batch.settled? env project isFirst e (← fetchConflicts env e.path)
    else return batch.settled? env project isFirst e (e.conflicts.filter (· ≠ [])) := by
  simp only [Batch.settled?, apply_ite (pure : Option Finding → Action (Option Finding))]
  rfl

/-- An entry is settled to be about its finding, or there is a reason why it is about nothing. -/
theorem settled?_cases (isFirst : Bool) (conflicts : Option (List TreeConflict)) :
    batch.settled? env project isFirst e conflicts = some { batch.finding env project e with
        entry := { e with conflicts := conflicts } } ∨
      batch.settled? env project isFirst e conflicts = none ∧
        (diskKind env.disk e.path e.kind = .none ∧ conflicts = none ∨
          isFirst = false ∧ batch.relative e = "") := by
  unfold Batch.settled?
  split
  next hnothing => exact .inr ⟨rfl, .inl (by simpa using hnothing)⟩
  · split
    next hroot => exact .inr ⟨rfl, .inr (by simpa using hroot)⟩
    · exact .inl rfl

end Lookup
end StatusCache
