/-
# Workspaces as trees

A lookup that scans a container goes on with what the host has in it, and relies on two things: what
a container holds has that container as its parent, and what is below a link is linked
(`Host.TreeAbove`). A workspace keeps to both, as long as the names on its disk are names of a file
system, nonempty and without a slash (`Workspace.treeAbove_host`). Nor does it hold a resource below
itself (`Workspace.not_holds_self`).
-/

import Mathlib.Logic.Relation
import StatusCache.Proofs.Resource
import StatusCache.Proofs.Text.Raw
import StatusCache.Workspace

namespace StatusCache

/-- On the way up from a resource the host is a tree: what a container holds has it as parent, and
what is below a link is linked. -/
structure Host.TreeAbove (h : Host) (t : Resource) : Prop where
  members : ∀ r ∈ t.lineage, r.isContainer → ∀ m ∈ h.members r, m.parent? = some r
  linked : ∀ c ∈ t.lineage, ∀ r ∈ c.parent?, h.isLinked r → h.isLinked c

/-- A resource is a member of another, or of what that holds further down. -/
def Host.Holds (h : Host) : Resource → Resource → Prop :=
  Relation.TransGen fun c m => c.isContainer ∧ m ∈ h.members c

/-- The names on a disk are nonempty and hold no slash. -/
def Disk.Named (d : Disk) : Prop :=
  ∀ place ∈ d.nodes.keys, ∀ name ∈ place, name ≠ "" ∧ Raw.slash ∉ name.bytes

instance (d : Disk) : Decidable d.Named :=
  inferInstanceAs
    (Decidable (∀ place ∈ d.nodes.keys, ∀ name ∈ place, name ≠ "" ∧ Raw.slash ∉ name.bytes))

/-- No two names in one directory of a disk read alike. Names that are UTF-8 never do. -/
def Disk.Legible (d : Disk) : Prop :=
  ∀ k ∈ d.nodes.keys, ∀ k' ∈ d.nodes.keys, k.dropLast = k'.dropLast →
    k.getLast?.map Raw.text = k'.getLast?.map Raw.text → k = k'

instance (d : Disk) : Decidable d.Legible :=
  inferInstanceAs (Decidable (∀ k ∈ d.nodes.keys, ∀ k' ∈ d.nodes.keys, k.dropLast = k'.dropLast →
    k.getLast?.map Raw.text = k'.getLast?.map Raw.text → k = k'))

namespace Disk

variable {d : Disk} {p : Path} {names : List Raw} {name name' : Raw}

/-- A directory lists the names of the nodes at one place. -/
theorem exists_place_of_list? (hlist : d.list? p = some names) :
    ∃ place, ∀ name, name ∈ names ↔ place ++ [name] ∈ d.nodes.keys := by
  unfold list? at hlist
  split at hlist
  next place _ _ =>
    obtain rfl := Option.some.inj hlist
    refine ⟨place, fun name => ?_⟩
    rw [List.mem_filterMap]
    constructor
    · rintro ⟨k, hk, hlast⟩
      split at hlast
      next hplace => rwa [← hplace.1, List.dropLast_append_getLast? name hlast]
      · cases hlast
    · exact fun hkey => ⟨place ++ [name], hkey, by simp⟩
  · cases hlist

/-- What is listed reads as a segment. -/
theorem Named.of_mem_list? (h : d.Named) (hlist : d.list? p = some names) (hname : name ∈ names) :
    Text.Segment '/' name.text := by
  obtain ⟨place, hplace⟩ := exists_place_of_list? hlist
  obtain ⟨hne, hslash⟩ := h _ ((hplace name).1 hname) name (by simp)
  exact Raw.segment_text hne hslash

/-- What is listed once is read once. -/
theorem Legible.eq_of_mem_list? (h : d.Legible) (hlist : d.list? p = some names)
    (hname : name ∈ names) (hname' : name' ∈ names) (htext : name.text = name'.text) :
    name = name' := by
  obtain ⟨place, hplace⟩ := exists_place_of_list? hlist
  simpa using h _ ((hplace name).1 hname) _ ((hplace name').1 hname') (by simp) (by simp [htext])

end Disk

namespace Resource

variable {r : Resource} {name : String}

/-- Sorting keeps the members. -/
@[simp]
theorem mem_sort {rs : List Resource} : r ∈ sort rs ↔ r ∈ rs := List.mem_mergeSort

/-- A segment is a path with one name. -/
theorem pathNames_of_segment (h : Text.Segment '/' name) : pathNames name = [name] := by
  have hsplit : Text.split '/' name = [name] := by
    rw [Text.split, Text.splitRuns_of_not_mem h.2, List.map_singleton, String.ofList_toList]
  rw [pathNames, hsplit]
  simp [h.1]

/-- What is named by one more segment is a child. -/
theorem WellFormed.parent?_ofNames_concat (h : r.WellFormed) (hr : r.isContainer) (hname : name ≠ "")
    (kind : Kind) : (ofNames (r.segments ++ [name]) kind).parent? = some r := by
  have hnames : ∀ s ∈ r.segments ++ [name], s ≠ "" := by
    intro s hs
    rcases List.mem_append.1 hs with hs | hs
    · exact h.names s hs
    · exact List.mem_singleton.1 hs ▸ hname
  rw [(wellFormed_ofNames hnames kind).parent?_eq (by simp), segments_ofNames, List.dropLast_concat,
    ← h.eq_ofNames hr]

end Resource

namespace Workspace

variable {w : Workspace} {d : Disk} {r c m t : Resource}

/-- The members of a container are its children. -/
theorem parent?_of_mem_members (hd : d.Named) (h : r.WellFormed) (hr : r.isContainer)
    (hm : m ∈ w.members d r) : m.parent? = some r := by
  unfold members at hm
  split at hm
  next hroot =>
    obtain ⟨name, -, rfl⟩ := List.mem_map.1 (Resource.mem_sort.1 hm)
    rw [h.eq_ofNames hr, h.kind_eq_root.1 hroot]
    rfl
  · split at hm
    · cases hm
    next path _ =>
      obtain ⟨name, hname, rfl⟩ := List.mem_map.1 (Resource.mem_sort.1 hm)
      have hlisted := (List.mem_filter.1 hname).1
      have hsegment : Text.Segment '/' name.text := by
        cases hlist : d.list? path with
        | none => simp [hlist] at hlisted
        | some names => exact hd.of_mem_list? hlist (by simpa [hlist] using hlisted)
      split
      · rw [Resource.folderAt, Resource.pathNames_of_segment hsegment, h.names_eq]
        exact h.parent?_ofNames_concat hr hsegment.1 .folder
      · rw [Resource.fileAt, Resource.pathNames_of_segment hsegment, h.names_eq]
        exact h.parent?_ofNames_concat hr hsegment.1 .file

/-- The members of a container other than the root are well formed. -/
theorem wellFormed_of_mem_members (h : r.WellFormed) (hr : r.kind ≠ .root)
    (hm : m ∈ w.members d r) : m.WellFormed := by
  have hnames : ∀ name, ∀ s ∈ r.names ++ Resource.pathNames name, s ≠ "" := by
    intro name s hs
    rcases List.mem_append.1 hs with hs | hs <;> simpa using (List.mem_filter.1 hs).2
  unfold members at hm
  rw [if_neg hr] at hm
  split at hm
  · cases hm
  · obtain ⟨name, -, rfl⟩ := List.mem_map.1 (Resource.mem_sort.1 hm)
    split
    · unfold Resource.folderAt
      split
      · exact h
      · exact Resource.wellFormed_ofNames (hnames _) .folder
    · exact Resource.wellFormed_ofNames (hnames _) .file

/-- **A workspace holds no resource below itself.** -/
theorem not_holds_self (hd : d.Named) (h : r.WellFormed) (hr : r.kind ≠ .root) :
    ¬(w.host d).Holds r r := by
  have hbelow : ∀ m, (w.host d).Holds r m →
      m.WellFormed ∧ m.kind ≠ .root ∧ r ∈ m.ancestors := by
    have hmember : ∀ c m, c.WellFormed → c.kind ≠ .root → c.isContainer → m ∈ w.members d c →
        m.WellFormed ∧ m.kind ≠ .root ∧ m.parent? = some c := by
      intro c m hc hroot hcontainer hm
      have hp := parent?_of_mem_members hd hc hcontainer hm
      refine ⟨wellFormed_of_mem_members hc hroot hm, fun hkind => ?_, hp⟩
      rw [Resource.parent?_eq_none.2 hkind] at hp
      cases hp
    intro m hm
    induction hm with
    | single hm =>
      obtain ⟨hwf, hroot, hp⟩ := hmember _ _ h hr hm.1 hm.2
      exact ⟨hwf, hroot, Resource.parent?_mem_ancestors hp⟩
    | tail _ hm ih =>
      obtain ⟨hwf, hroot, hp⟩ := hmember _ _ ih.1 ih.2.1 hm.1 hm.2
      exact ⟨hwf, hroot, (Resource.mem_ancestors_of_parent? hp).2 (Or.inr ih.2.2)⟩
  exact fun hself => Resource.not_mem_ancestors_self r (hbelow r hself).2.2

/-- A link holds for everything below it. -/
theorem isSome_linkAbove?_of_parent? (hp : c.parent? = some r) (h : (w.linkAbove? r).isSome) :
    (w.linkAbove? c).isSome := by
  rw [linkAbove?] at h ⊢
  rw [Resource.ancestors_of_parent? hp, List.findSome?_cons]
  split
  · rfl
  · exact h

/-- **A workspace is a tree**, as long as the names on the disk are those of a file system. -/
theorem treeAbove_host (w : Workspace) (hd : d.Named) (ht : t.WellFormed) :
    (w.host d).TreeAbove t where
  members _ hr hcontainer _ hm := parent?_of_mem_members hd (ht.of_mem_lineage hr) hcontainer hm
  linked _ _ _ hp hlinked := isSome_linkAbove?_of_parent? hp hlinked

end Workspace
end StatusCache
