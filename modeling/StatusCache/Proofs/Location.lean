/-
# Where a workspace has what lies in a project

A host is faithful to a project if what it has there goes by its names: a member by the path at
which it is asked for, and what is not linked lies on disk along its names, below the root of the
working copy (`Host.Faithful`). A workspace is faithful to each of its projects that has a location
(`Workspace.faithful_host`).
-/

import StatusCache.Proofs.Path
import StatusCache.Workspace

namespace StatusCache

/-- A host has the members of a project at their paths, and what is not linked along its names. -/
structure Host.Faithful (h : Host) (project : Resource) : Prop where
  member : ∀ {relative m}, h.member? project relative = some m →
    m = project.folderAt relative ∨ m = project.fileAt relative
  location : ∀ {binding r place}, h.binding? project = some binding →
    (∀ s ∈ r.segments, '/' ∉ s.toList) → r.project? = some project → h.isLinked r = false →
    h.location? r = some place →
    place.components =
      binding.location.components ++ (r.names.drop 1).filterMap Path.Component.ofName?

namespace Workspace

variable {w : Workspace} {d : Disk} {project r m : Resource}

/-- What a workspace has at a relative path is the folder or the file there. -/
theorem member?_eq {relative : String} (h : w.member? d project relative = some m) :
    m = project.folderAt relative ∨ m = project.fileAt relative := by
  have hnames := Resource.pathNames_trim relative
  unfold member? at h
  simp only at h
  split at h
  next hempty =>
    rw [hempty] at hnames
    obtain ⟨_, -, rfl⟩ := Option.map_eq_some_iff.1 h
    rw [Resource.folderAt, ← hnames]
    exact .inl rfl
  next =>
    rw [show project.folderAt (Text.trim '/' relative) = project.folderAt relative by
        rw [Resource.folderAt, Resource.folderAt, hnames],
      show project.fileAt (Text.trim '/' relative) = project.fileAt relative by
        rw [Resource.fileAt, Resource.fileAt, hnames]] at h
    obtain ⟨path, -, hread⟩ := Option.bind_eq_some_iff.1 h
    split at hread
    · exact .inl (Option.some.inj hread).symm
    · exact .inr (Option.some.inj hread).symm
    · cases hread

/-- **A workspace is faithful to a project with a location.** -/
theorem faithful_host (w : Workspace) (d : Disk)
    (hlocation : ∀ p, w.project? project = some p → p.location.raw ≠ "") :
    (w.host d).Faithful project where
  member := member?_eq
  location {binding r place} hbinding hplain hproject hlinked hplace := by
    obtain ⟨p, hp, hnode⟩ := Option.bind_eq_some_iff.1 hbinding
    obtain ⟨node, -, hbound⟩ := Option.bind_eq_some_iff.1 hnode
    obtain rfl := Option.some.inj hbound
    obtain ⟨name, below, hname, hnames, -⟩ := Resource.exists_names_of_project? hplain hproject
    have hsegments : ∀ s ∈ below, Text.Segment '/' s := fun s hs => by
      have hmem : s ∈ r.names := by rw [hnames]; exact List.mem_cons_of_mem name hs
      obtain ⟨hsegment, hne⟩ := List.mem_filter.1 hmem
      exact ⟨by simpa using hne, hplain s hsegment⟩
    have hunlinked : w.linkAbove? r = none := by simpa [host] using hlinked
    change w.location? r = some place at hplace
    rw [location?, hunlinked, hproject] at hplace
    simp only [Option.bind_eq_bind, Option.bind_some, hp] at hplace
    obtain rfl := Option.some.inj hplace
    rw [Resource.projectPath, hnames, List.drop_one, List.tail_cons, placeBelow]
    split
    next hempty =>
      rw [(Text.join_eq_empty hsegments).1 hempty]
      simp
    · exact Path.components_join_text (hlocation p hp) hsegments

end Workspace
end StatusCache
