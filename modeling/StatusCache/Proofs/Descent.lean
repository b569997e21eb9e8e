/-
# Up and down between resources

There are three ways to say that one resource lies above another: by what its path begins with
(`isAncestorOf`), by the steps from a resource to its parent (`Climbs`), and by the relative path
between the two (`relativeTo?`). Among the resources that the constructors give, the three are the
same. The relative path leads down again from the container to the resource, and joined segments are
the relative path of what they lead to (`climb_and_descend`).
-/

import Mathlib.Logic.Relation
import StatusCache.Proofs.Place

namespace StatusCache

namespace Resource

variable {r a b p : Resource} {below : List String} {relative : String}

/-! ### Climbing -/

/-- One or more steps from a resource to its parent lead to another. -/
def Climbs : Resource → Resource → Prop := Relation.TransGen fun r p => r.parent? = some p

/-- What a resource climbs to are its ancestors. -/
theorem climbs_iff_mem_ancestors : r.Climbs a ↔ a ∈ r.ancestors := by
  constructor
  · intro h
    induction h using Relation.TransGen.head_induction_on with
    | single hp => exact parent?_mem_ancestors hp
    | head hp _ ih => exact (mem_ancestors_of_parent? hp).2 (.inr ih)
  · intro h
    induction r using parent_induction with
    | step r ih =>
      cases hp : r.parent? with
      | none => simp [ancestors_of_parent?_none hp] at h
      | some p =>
        rcases (mem_ancestors_of_parent? hp).1 h with rfl | h
        · exact .single hp
        · exact .head hp (ih p hp h)

/-- **A container lies above what climbs to it.** -/
theorem WellFormed.isAncestorOf_iff_climbs (ha : a.WellFormed) (hr : r.WellFormed)
    (hcontainer : a.isContainer) : a.isAncestorOf r ↔ r.Climbs a := by
  rw [climbs_iff_mem_ancestors, hr.mem_ancestors_iff ha]
  exact (and_iff_right hcontainer).symm

/-! ### Descending -/

/-- What is built has names. -/
theorem Built.named (h : r.Built) : r.Named := by
  cases h with
  | root => exact .root
  | project => exact .project _
  | path path kind => exact .path path kind

/-- The segments of what the constructors give are told by the path. -/
theorem Built.segments_eq (hr : r.Built) (ha : a.Built) (h : r.path = a.path) :
    r.segments = a.segments :=
  Text.join_injective (fun s hs => ⟨hr.wellFormed.names s hs, hr.named.plain s hs⟩)
    (fun s hs => ⟨ha.wellFormed.names s hs, ha.named.plain s hs⟩)
    ((String.append_right_inj "/").1 h)

/-- A file is told by its segments. -/
theorem WellFormed.eq_ofNames_file (h : r.WellFormed) (hr : ¬r.isContainer) :
    r = ofNames r.segments .file := by
  obtain ⟨segments, kind⟩ := r
  obtain ⟨_, hshape⟩ := h
  cases kind with
  | file =>
    match segments, hshape with
    | [_], _ => rfl
    | _ :: _ :: _, _ => rfl
  | _ => exact absurd rfl hr

/-- A folder below a resource adds the names of the relative path. -/
theorem segments_folderAt (ha : a.WellFormed) (relative : String) :
    (a.folderAt relative).segments = a.segments ++ pathNames relative := by
  rw [← (ha.folderAt relative).names_eq, names_folderAt, ha.names_eq]

/-- A file below a resource adds the names of the relative path. -/
theorem segments_fileAt (ha : a.WellFormed) (relative : String) :
    (a.fileAt relative).segments = a.segments ++ pathNames relative := by
  rw [← (wellFormed_fileAt a relative).names_eq, names_fileAt, ha.names_eq]

/-- There is a relative path between two resources if the one has the segments of the other, and
perhaps more. -/
theorem Built.relativeTo?_eq_some_iff (hr : r.Built) (ha : a.Built) :
    r.relativeTo? a = some relative ↔
      ∃ below, r.segments = a.segments ++ below ∧ relative = Text.join '/' below := by
  constructor
  · intro h
    have hbegins : a.segments <+: r.segments := by
      unfold relativeTo? at h
      split at h
      next hpath => exact hr.segments_eq ha hpath ▸ List.prefix_rfl
      · split at h
        next habove => exact ((ha.wellFormed.isAncestorOf_iff hr.wellFormed).1 habove).1
        · cases h
    obtain ⟨below, hbelow⟩ := hbegins
    rw [hr.wellFormed.relativeTo?_of_segments ha.wellFormed hbelow.symm] at h
    exact ⟨below, hbelow.symm, (Option.some.inj h).symm⟩
  · rintro ⟨below, hbelow, rfl⟩
    exact hr.wellFormed.relativeTo?_of_segments ha.wellFormed hbelow

/-- A folder below a container is a container. -/
theorem isContainer_folderAt (ha : a.isContainer) (relative : String) :
    (a.folderAt relative).isContainer := by
  unfold folderAt
  split
  · exact ha
  · exact isContainer_ofNames_folder _

/-- **The relative path leads down again**, to a folder or to a file. -/
theorem Built.descend (hr : r.Built) (ha : a.Built) (hcontainer : a.isContainer)
    (h : r.relativeTo? a = some relative) :
    if r.isContainer then a.folderAt relative = r else a.fileAt relative = r := by
  obtain ⟨below, hbelow, rfl⟩ := (hr.relativeTo?_eq_some_iff ha).1 h
  have hnames : pathNames (Text.join '/' below) = below := pathNames_join fun s hs =>
    have hmem : s ∈ r.segments := hbelow ▸ List.mem_append_right _ hs
    ⟨hr.wellFormed.names s hmem, hr.named.plain s hmem⟩
  split
  next hfolder =>
    have hsegments := segments_folderAt ha.wellFormed (Text.join '/' below)
    rw [hnames, ← hbelow] at hsegments
    rw [(ha.wellFormed.folderAt _).eq_ofNames (isContainer_folderAt hcontainer _), hsegments,
      ← hr.wellFormed.eq_ofNames hfolder]
  next hfile =>
    rw [fileAt, hnames, ha.wellFormed.names_eq, ← hbelow, ← hr.wellFormed.eq_ofNames_file hfile]

/-- **Joined segments are the relative path of what they lead to.** -/
theorem WellFormed.relativeTo?_join (ha : a.WellFormed)
    (hbelow : ∀ s ∈ below, Text.Segment '/' s) :
    (a.folderAt (Text.join '/' below)).relativeTo? a = some (Text.join '/' below) ∧
      (a.fileAt (Text.join '/' below)).relativeTo? a = some (Text.join '/' below) := by
  have hnames := pathNames_join hbelow
  constructor
  · refine (ha.folderAt _).relativeTo?_of_segments ha ?_
    rw [segments_folderAt ha, hnames]
  · refine (wellFormed_fileAt a _).relativeTo?_of_segments ha ?_
    rw [segments_fileAt ha, hnames]

/-- Ancestors of ancestors are ancestors. -/
theorem WellFormed.isAncestorOf_trans {c : Resource} (ha : a.WellFormed) (hb : b.WellFormed)
    (hc : c.WellFormed) (hab : a.isAncestorOf b) (hbc : b.isAncestorOf c) : a.isAncestorOf c := by
  rw [ha.isAncestorOf_iff hb] at hab
  rw [hb.isAncestorOf_iff hc] at hbc
  exact (ha.isAncestorOf_iff hc).2 ⟨hab.1.trans hbc.1, hab.2.trans hbc.2⟩

/-- **Up and down between the resources that the constructors give.** A container lies above what
climbs to it, which is a strict order. A resource has a path relative to it if it shares its path or
the container lies above it, and this path leads down to the resource again. Segments that are
joined onto the container are the relative path of what they lead to. -/
theorem climb_and_descend (ha : a.Built) (hcontainer : a.isContainer) (hb : b.Built) :
    (a.isAncestorOf b ↔ b.Climbs a) ∧ ¬a.isAncestorOf a ∧
      (∀ c : Resource, c.Built → a.isAncestorOf b → b.isAncestorOf c → a.isAncestorOf c) ∧
      ((b.relativeTo? a).isSome ↔ b.path = a.path ∨ a.isAncestorOf b) ∧
      (∀ relative, b.relativeTo? a = some relative →
        if b.isContainer then a.folderAt relative = b else a.fileAt relative = b) ∧
      ∀ below : List String, (∀ s ∈ below, Text.Segment '/' s) →
        (a.folderAt (Text.join '/' below)).relativeTo? a = some (Text.join '/' below) ∧
          (a.fileAt (Text.join '/' below)).relativeTo? a = some (Text.join '/' below) := by
  have hclimbs : ∀ {r : Resource}, r.Built → (a.isAncestorOf r ↔ r.Climbs a) := fun hr =>
    ha.wellFormed.isAncestorOf_iff_climbs hr.wellFormed hcontainer
  refine ⟨hclimbs hb, fun hself => ?_, fun c hc => ?_, ?_, fun relative => hb.descend ha hcontainer,
    fun below => ha.wellFormed.relativeTo?_join⟩
  · exact not_mem_ancestors_self a (climbs_iff_mem_ancestors.1 ((hclimbs ha).1 hself))
  · exact ha.wellFormed.isAncestorOf_trans hb.wellFormed hc.wellFormed
  · unfold relativeTo?
    split
    next hpath => simp [hpath]
    next hpath => split <;> simp_all

/-- A file two levels below a folder, joined segments, and a file that shares its path with a
project. -/
theorem climb_and_descend_files :
    (folder "/p/x").Built ∧ (folder "/p/x").isContainer ∧ (file "/p/x/y/z.txt").Built ∧
      (project "p").Built ∧ (project "p").isContainer ∧ (file "/p").Built ∧
      (file "/p/x/y/z.txt").Climbs (folder "/p/x") ∧
      (file "/p/x/y/z.txt").relativeTo? (folder "/p/x") = some "y/z.txt" ∧
      (folder "/p/x").fileAt "y/z.txt" = file "/p/x/y/z.txt" ∧
      (∀ s ∈ ["u", "v"], Text.Segment '/' s) ∧
      ((folder "/p/x").fileAt (Text.join '/' ["u", "v"])).relativeTo? (folder "/p/x") =
        some (Text.join '/' ["u", "v"]) ∧
      ¬(file "/p").Climbs (project "p") ∧ (file "/p").relativeTo? (project "p") = some "" ∧
      (project "p").fileAt "" = file "/p" := by
  have hfolder : (folder "/p/x").Built := .path _ _
  have hfile : (file "/p/x/y/z.txt").Built := .path _ _
  have hproject : (project "p").Built := .project (by decide : "p" ≠ "") (by decide +kernel)
  have hsame : (file "/p").Built := .path _ _
  have hdeep := climb_and_descend hfolder (by decide +kernel) hfile
  have hflat := climb_and_descend hproject (by decide +kernel) hsame
  have hrelative : (file "/p/x/y/z.txt").relativeTo? (folder "/p/x") = some "y/z.txt" := by
    decide +kernel
  have hempty : (file "/p").relativeTo? (project "p") = some "" := by decide +kernel
  have hjoined : ∀ s ∈ ["u", "v"], Text.Segment '/' s := by
    simp only [List.forall_mem_cons, List.not_mem_nil, false_implies, implies_true, and_true]
    exact ⟨⟨by decide, by decide⟩, by decide, by decide⟩
  refine ⟨hfolder, by decide +kernel, hfile, hproject, by decide +kernel, hsame,
    hdeep.1.1 (by decide +kernel), hrelative, ?_, hjoined, (hdeep.2.2.2.2.2 _ hjoined).2,
    fun h => ?_, hempty, ?_⟩
  · exact hdeep.2.2.2.2.1 _ hrelative
  · exact absurd (hflat.1.2 h) (by decide +kernel)
  · exact hflat.2.2.2.2.1 _ hempty

end Resource

end StatusCache
