/-
# The hierarchy of resources

Every resource but the root has one parent, a container with fewer containers above it, so that the
parents of a resource make a finite chain up to the root: `ancestors`. This holds for every list of
segments, also for one that no path gives.

Resources that stand for places (`Resource.WellFormed`) have nonempty segments and as many of them
as their kind asks for. Among these the chain of parents is the same as the containers whose
segments begin the path: `mem_ancestors_iff`.
-/

import Mathlib.Data.List.Infix
import StatusCache.Resource

namespace StatusCache

namespace Resource

/-! ### Parents -/

/-- What is made of names as a folder is a container. -/
theorem isContainer_ofNames_folder (names : List String) :
    (ofNames names .folder).isContainer := by
  unfold ofNames
  split <;> rfl

/-- Only containers have children. -/
theorem isContainer_of_parent? {r p : Resource} (h : r.parent? = some p) : p.isContainer := by
  unfold parent? at h
  split at h
  · cases h
  · obtain rfl := Option.some.inj h
    rfl
  · obtain rfl := Option.some.inj h
    exact isContainer_ofNames_folder _

/-- Only the root has no parent. -/
theorem parent?_eq_none {r : Resource} : r.parent? = none ↔ r.kind = .root := by
  unfold parent?
  split <;> simp_all

/-- What is made of names is not the root. -/
theorem kind_ofNames {names : List String} (h : names ≠ []) (kind : Kind) :
    (ofNames names kind).kind ≠ .root := by
  unfold ofNames
  split
  · exact absurd rfl h
  · split <;> simp
  · split <;> simp

/-- A folder below something other than the root is not the root. -/
theorem kind_folderAt {r : Resource} (h : r.kind ≠ .root) (relative : String) :
    (r.folderAt relative).kind ≠ .root := by
  unfold folderAt
  split
  · exact h
  next hbelow => exact kind_ofNames (fun hnil => hbelow (List.append_eq_nil_iff.1 hnil).2) .folder

/-- A file below something with a name is not the root. -/
theorem kind_fileAt {r : Resource} (h : r.names ≠ []) (relative : String) :
    (r.fileAt relative).kind ≠ .root :=
  kind_ofNames (fun hnil => h (List.append_eq_nil_iff.1 hnil).1) .file

/-- The containers above one with nonempty segments are named by ever fewer of these. -/
theorem ancestors_ofNames {names : List String} (h : ∀ s ∈ names, s ≠ "") :
    ofNames names .folder :: (ofNames names .folder).ancestors = enclosingAll names.reverse := by
  rcases names.eq_nil_or_concat with rfl | ⟨outer, s, rfl⟩
  · rfl
  have houter : outer.filter (· ≠ "") = outer := by
    refine List.filter_eq_self.2 fun t ht => ?_
    simpa using h t (by simp [ht])
  rw [List.concat_eq_append, List.reverse_append, List.reverse_singleton, List.singleton_append,
    enclosingAll, enclosing, List.reverse_cons, List.reverse_reverse]
  cases outer with
  | nil => rfl
  | cons first more =>
    have hfolder : ofNames (first :: more ++ [s]) .folder = ⟨first :: more ++ [s], .folder⟩ := by
      cases more <;> rfl
    simp only [hfolder, ancestors, List.dropLast_concat, houter]

/-- The parent comes first among the containers above a resource, and the others are above it. -/
theorem ancestors_of_parent? {r p : Resource} (h : r.parent? = some p) :
    r.ancestors = p :: p.ancestors := by
  obtain ⟨segments, kind⟩ := r
  have hnames : ∀ s ∈ segments.dropLast.filter (· ≠ ""), s ≠ "" := fun s hs => by
    simpa using (List.mem_filter.1 hs).2
  cases kind with
  | root => cases h
  | project =>
    obtain rfl := Option.some.inj h
    rfl
  | file =>
    obtain rfl := Option.some.inj h
    exact (ancestors_ofNames hnames).symm
  | folder =>
    obtain rfl := Option.some.inj h
    exact (ancestors_ofNames hnames).symm

/-- Without a parent there are no ancestors. -/
theorem ancestors_of_parent?_none {r : Resource} (h : r.parent? = none) : r.ancestors = [] := by
  rw [parent?_eq_none] at h
  simp [ancestors, h]

/-- One container fewer is above the parent. -/
theorem length_ancestors_of_parent? {r p : Resource} (h : r.parent? = some p) :
    r.ancestors.length = p.ancestors.length + 1 := by
  rw [ancestors_of_parent? h, List.length_cons]

/-- **Induction up the hierarchy.** A property holds of a resource if it follows from the same
property of the parent. -/
theorem parent_induction {motive : Resource → Prop}
    (step : ∀ r, (∀ p, r.parent? = some p → motive p) → motive r) (r : Resource) : motive r := by
  induction hn : r.ancestors.length generalizing r with
  | zero =>
    refine step r fun p hp => ?_
    rw [length_ancestors_of_parent? hp] at hn
    omega
  | succ n ih =>
    refine step r fun p hp => ih p ?_
    rw [length_ancestors_of_parent? hp] at hn
    omega

/-- The ancestors are the parent and its ancestors. -/
theorem mem_ancestors_of_parent? {r p a : Resource} (h : r.parent? = some p) :
    a ∈ r.ancestors ↔ a = p ∨ a ∈ p.ancestors := by
  rw [ancestors_of_parent? h, List.mem_cons]

/-- The parent is an ancestor. -/
theorem parent?_mem_ancestors {r p : Resource} (h : r.parent? = some p) : p ∈ r.ancestors :=
  (mem_ancestors_of_parent? h).2 (Or.inl rfl)

/-- Fewer containers are above an ancestor. -/
theorem length_ancestors_lt {r a : Resource} (h : a ∈ r.ancestors) :
    a.ancestors.length < r.ancestors.length := by
  induction r using parent_induction with
  | step r ih =>
    cases hp : r.parent? with
    | none => simp [ancestors_of_parent?_none hp] at h
    | some p =>
      rw [length_ancestors_of_parent? hp]
      rcases (mem_ancestors_of_parent? hp).1 h with rfl | h
      · omega
      · have := ih p hp h
        omega

/-- Ancestors are containers. -/
theorem isContainer_of_mem_ancestors {r a : Resource} (h : a ∈ r.ancestors) : a.isContainer := by
  induction r using parent_induction with
  | step r ih =>
    cases hp : r.parent? with
    | none => simp [ancestors_of_parent?_none hp] at h
    | some p =>
      rcases (mem_ancestors_of_parent? hp).1 h with rfl | h
      · exact isContainer_of_parent? hp
      · exact ih p hp h

/-- No resource is its own ancestor. -/
theorem not_mem_ancestors_self (r : Resource) : r ∉ r.ancestors :=
  fun h => lt_irrefl _ (length_ancestors_lt h)

/-- Ancestors of ancestors are ancestors. -/
theorem mem_ancestors_trans {a b r : Resource} (ha : a ∈ b.ancestors) (hb : b ∈ r.ancestors) :
    a ∈ r.ancestors := by
  induction r using parent_induction with
  | step r ih =>
    cases hp : r.parent? with
    | none => simp [ancestors_of_parent?_none hp] at hb
    | some p =>
      refine (mem_ancestors_of_parent? hp).2 (Or.inr ?_)
      rcases (mem_ancestors_of_parent? hp).1 hb with rfl | hb
      · exact ha
      · exact ih p hp hb

/-- A resource and the containers above it, nearest first. -/
def lineage (r : Resource) : List Resource := r :: r.ancestors

/-- A resource is in its own lineage. -/
theorem self_mem_lineage (r : Resource) : r ∈ r.lineage := List.mem_cons_self

/-- The lineage is the resource and the lineage of its parent. -/
theorem mem_lineage_of_parent? {r p a : Resource} (h : r.parent? = some p) :
    a ∈ r.lineage ↔ a = r ∨ a ∈ p.lineage := by
  rw [lineage, ancestors_of_parent? h, List.mem_cons]
  rfl

/-- The lineages of what is in a lineage are part of it. -/
theorem mem_lineage_trans {a b r : Resource} (ha : a ∈ b.lineage) (hb : b ∈ r.lineage) :
    a ∈ r.lineage := by
  rcases List.mem_cons.1 hb with rfl | hb
  · exact ha
  · refine List.mem_cons_of_mem _ ?_
    rcases List.mem_cons.1 ha with rfl | ha
    · exact hb
    · exact mem_ancestors_trans ha hb

/-- What is in the lineage has no more ancestors. -/
theorem length_ancestors_le {r a : Resource} (h : a ∈ r.lineage) :
    a.ancestors.length ≤ r.ancestors.length := by
  rcases List.mem_cons.1 h with rfl | h
  · exact le_rfl
  · exact (length_ancestors_lt h).le

/-- Of two containers on the way up from a resource, one is above the other. -/
theorem mem_lineage_total {r a b : Resource} (ha : a ∈ r.lineage) (hb : b ∈ r.lineage) :
    a ∈ b.lineage ∨ b ∈ a.lineage := by
  induction r using parent_induction with
  | step r ih =>
    rcases List.mem_cons.1 ha with rfl | habove
    · exact Or.inr hb
    · rcases List.mem_cons.1 hb with rfl | hbabove
      · exact Or.inl ha
      · cases hp : r.parent? with
        | none => simp [ancestors_of_parent?_none hp] at habove
        | some p =>
          rw [ancestors_of_parent? hp] at habove hbabove
          exact ih p hp habove hbabove

/-- On the way up from a resource there is one container at each height. -/
theorem eq_of_mem_lineage {r a b : Resource} (ha : a ∈ r.lineage) (hb : b ∈ r.lineage)
    (hlength : a.ancestors.length = b.ancestors.length) : a = b := by
  rcases mem_lineage_total ha hb with h | h
  · rcases List.mem_cons.1 h with rfl | h
    · rfl
    · exact absurd hlength (length_ancestors_lt h).ne
  · rcases List.mem_cons.1 h with rfl | h
    · rfl
    · exact absurd hlength (length_ancestors_lt h).ne'

/-! ### Places -/

/-- Resources that stand for places: no segment is empty, and only the root has none. A container
with one segment is a project, and one with more is a folder. -/
structure WellFormed (r : Resource) : Prop where
  names : ∀ s ∈ r.segments, s ≠ ""
  shape : match r.kind with
    | .root => r.segments = []
    | .project => r.segments.length = 1
    | .folder => 2 ≤ r.segments.length
    | .file => 1 ≤ r.segments.length

/-- The ways in which a place is named: as the root, as a project by its one segment, or by the
segments of a path. -/
inductive Built : Resource → Prop
  | root : Built root
  | project {name segment : String} (hne : segment ≠ "")
      (h : (project name).segments = [segment]) : Built (project name)
  | path (path : String) (kind : Kind) : Built (ofPath path kind)

/-- Whatever is named as the root, as a project, or by a path. A project may have any name, so that
not all of these are places. -/
inductive Named : Resource → Prop
  | root : Named root
  | project (name : String) : Named (project name)
  | path (path : String) (kind : Kind) : Named (ofPath path kind)

/-- What is made of names has them as segments. -/
@[simp]
theorem segments_ofNames (names : List String) (kind : Kind) :
    (ofNames names kind).segments = names := by
  unfold ofNames
  split <;> rfl

/-- The root is well-formed. -/
theorem wellFormed_root : root.WellFormed := ⟨by simp [root], rfl⟩

/-- What is made of nonempty names is well-formed. -/
theorem wellFormed_ofNames {names : List String} (h : ∀ s ∈ names, s ≠ "") (kind : Kind) :
    (ofNames names kind).WellFormed := by
  match names with
  | [] => exact wellFormed_root
  | [name] => exact ⟨h, by cases kind <;> simp [ofNames, Kind.isContainer]⟩
  | first :: second :: more => exact ⟨h, by cases kind <;> simp [ofNames, Kind.isContainer]⟩

/-- What lies in a project lies in the project of its parent. -/
theorem project?_of_parent? {r p : Resource} (h : r.parent? = some p) (hroot : p.kind ≠ .root) :
    p.project? = r.project? := by
  unfold parent? at h
  split at h
  · cases h
  · obtain rfl := Option.some.inj h
    exact absurd rfl hroot
  · obtain rfl := Option.some.inj h
    have hnames : (ofNames (r.segments.dropLast.filter (· ≠ "")) .folder).names =
        r.segments.dropLast.filter (· ≠ "") := by
      rw [names, segments_ofNames, List.filter_filter]
      simp
    have hne : r.segments.dropLast.filter (· ≠ "") ≠ [] := fun hnil => by
      rw [hnil] at hroot
      exact hroot rfl
    rw [project?, project?, hnames, names]
    rcases List.eq_nil_or_concat r.segments with hnil | ⟨init, last, hconcat⟩
    · rw [hnil] at hne
      exact absurd rfl hne
    · rw [hconcat, List.concat_eq_append, List.dropLast_concat] at hne ⊢
      rw [List.filter_append, List.head?_append_of_ne_nil _ hne]

/-- However a place is named, it is well formed. -/
theorem Built.wellFormed {r : Resource} (h : r.Built) : r.WellFormed := by
  cases h with
  | root => exact wellFormed_root
  | project hne h =>
    refine ⟨fun s hs => ?_, ?_⟩
    · rw [h, List.mem_singleton] at hs
      exact hs ▸ hne
    · exact (congrArg List.length h).trans rfl
  | path path kind =>
    exact wellFormed_ofNames (fun s hs => by simpa using (List.mem_filter.1 hs).2) kind

/-- What is made of nonempty names has them as names. -/
theorem names_ofNames {names : List String} (h : ∀ s ∈ names, s ≠ "") (kind : Kind) :
    (ofNames names kind).names = names := by
  rw [Resource.names, segments_ofNames]
  exact List.filter_eq_self.2 fun s hs => by simpa using h s hs

/-- The names of a container above a resource begin its own. -/
theorem isPrefix_names_of_mem_ancestors {r a : Resource} (h : a ∈ r.ancestors) :
    a.names <+: r.names := by
  have hparent : ∀ {r p : Resource}, r.parent? = some p → p.names <+: r.names := by
    rintro ⟨segments, kind⟩ p hp
    have houter : (ofNames (segments.dropLast.filter (· ≠ "")) .folder).names <+:
        segments.filter (· ≠ "") := by
      rw [names_ofNames fun s hs => by simpa using (List.mem_filter.1 hs).2]
      exact (List.dropLast_prefix segments).filter _
    cases kind with
    | root => cases hp
    | project =>
      obtain rfl := Option.some.inj hp
      exact List.nil_prefix
    | file =>
      obtain rfl := Option.some.inj hp
      exact houter
    | folder =>
      obtain rfl := Option.some.inj hp
      exact houter
  induction r using parent_induction with
  | step r ih =>
    cases hp : r.parent? with
    | none => simp [ancestors_of_parent?_none hp] at h
    | some p =>
      rcases (mem_ancestors_of_parent? hp).1 h with rfl | ha
      · exact hparent hp
      · exact (ih p hp ha).trans (hparent hp)

/-- One resource is above another if its segments are a proper prefix. -/
theorem isAncestorOf_iff_segments {r s : Resource} (h : r.kind ≠ .root) :
    r.isAncestorOf s ↔ r.segments <+: s.segments ∧ r.segments.length < s.segments.length := by
  unfold isAncestorOf
  split
  next hroot => exact absurd hroot h
  · simp

namespace WellFormed

variable {r s p : Resource}

/-- A container is told by its segments. -/
theorem eq_ofNames (h : r.WellFormed) (hr : r.isContainer) :
    r = ofNames r.segments .folder := by
  obtain ⟨segments, kind⟩ := r
  obtain ⟨_, hshape⟩ := h
  cases kind with
  | file => cases hr
  | root =>
    obtain rfl : segments = [] := hshape
    rfl
  | project =>
    obtain ⟨name, rfl⟩ := List.length_eq_one_iff.1 hshape
    rfl
  | folder =>
    match segments, hshape with
    | _ :: _ :: _, _ => rfl

/-- No segment is empty. -/
theorem names_eq (h : r.WellFormed) : r.names = r.segments :=
  List.filter_eq_self.2 fun s hs => by simpa using h.names s hs

/-- Only the root has no segments. -/
theorem kind_eq_root (h : r.WellFormed) : r.kind = .root ↔ r.segments = [] := by
  obtain ⟨segments, kind⟩ := r
  obtain ⟨_, hshape⟩ := h
  cases kind <;> cases segments <;> simp_all

/-- The segments that the containers above are named by. -/
theorem filter_dropLast (h : r.WellFormed) :
    r.segments.dropLast.filter (· ≠ "") = r.segments.dropLast :=
  List.filter_eq_self.2 fun s hs => by simpa using h.names s (List.mem_of_mem_dropLast hs)

/-- The parent is the folder of all segments but the last. -/
theorem parent?_eq (h : r.WellFormed) (hr : r.segments ≠ []) :
    r.parent? = some (ofNames r.segments.dropLast .folder) := by
  have hfilter := h.filter_dropLast
  obtain ⟨segments, kind⟩ := r
  obtain ⟨_, hshape⟩ := h
  cases kind with
  | root => exact absurd hshape hr
  | project =>
    obtain ⟨name, rfl⟩ := List.length_eq_one_iff.1 hshape
    rfl
  | file => exact congrArg (fun names => some (ofNames names .folder)) hfilter
  | folder => exact congrArg (fun names => some (ofNames names .folder)) hfilter

/-- The parent of a well-formed resource is well-formed. -/
theorem parent (h : r.WellFormed) (hp : r.parent? = some p) : p.WellFormed := by
  have hr : r.segments ≠ [] := fun hnil => by
    rw [parent?_eq_none.2 (h.kind_eq_root.2 hnil)] at hp
    cases hp
  rw [h.parent?_eq hr] at hp
  obtain rfl := Option.some.inj hp
  exact wellFormed_ofNames (fun s hs => h.names s (List.mem_of_mem_dropLast hs)) _

/-- The containers above a place are places. -/
theorem of_mem_ancestors {a : Resource} (h : r.WellFormed) (ha : a ∈ r.ancestors) :
    a.WellFormed := by
  induction r using parent_induction with
  | step r ih =>
    cases hp : r.parent? with
    | none => simp [ancestors_of_parent?_none hp] at ha
    | some p =>
      rcases (mem_ancestors_of_parent? hp).1 ha with rfl | ha
      · exact h.parent hp
      · exact ih p hp (h.parent hp) ha

/-- All of the lineage of a well-formed resource is well-formed. -/
theorem of_mem_lineage {a : Resource} (h : r.WellFormed) (ha : a ∈ r.lineage) : a.WellFormed := by
  rcases List.mem_cons.1 ha with rfl | habove
  · exact h
  · exact h.of_mem_ancestors habove

/-- One place is above another if its segments begin those of the other. -/
theorem isAncestorOf_iff (h : r.WellFormed) (hs : s.WellFormed) :
    r.isAncestorOf s ↔ r.segments <+: s.segments ∧ r.segments.length < s.segments.length := by
  by_cases hk : r.kind = .root
  · have hnil := h.kind_eq_root.1 hk
    simp only [isAncestorOf, hk, hnil, List.nil_prefix, List.length_nil, true_and,
      decide_eq_true_eq, List.length_pos_iff]
    exact not_congr hs.kind_eq_root
  · exact isAncestorOf_iff_segments hk

/-- **The chain of parents of a place holds the containers above it.** -/
theorem mem_ancestors_iff (h : r.WellFormed) (hp : p.WellFormed) :
    p ∈ r.ancestors ↔ p.isContainer ∧ p.isAncestorOf r := by
  induction r using parent_induction with
  | step r ih =>
    rw [hp.isAncestorOf_iff h]
    rcases r.segments.eq_nil_or_concat with hr | ⟨outer, s, hr⟩
    · have hnone : r.parent? = none := parent?_eq_none.2 (h.kind_eq_root.2 hr)
      simp [ancestors_of_parent?_none hnone, hr]
    · have hparent := h.parent?_eq (by simp [hr])
      rw [hr, List.concat_eq_append, List.dropLast_concat] at hparent
      rw [mem_ancestors_of_parent? hparent, ih _ hparent (h.parent hparent),
        hp.isAncestorOf_iff (h.parent hparent), segments_ofNames, hr, List.concat_eq_append,
        List.prefix_concat_iff, List.length_append, List.length_singleton]
      constructor
      · rintro (rfl | ⟨hc, hpre, hlt⟩)
        · exact ⟨isContainer_ofNames_folder _, by simp⟩
        · exact ⟨hc, Or.inr hpre, by omega⟩
      · rintro ⟨hc, hwhole | hpre, hlt⟩
        · rw [hwhole] at hlt
          simp at hlt
        · rcases hpre.length_le.eq_or_lt with heq | hlt
          · exact Or.inl ((hp.eq_ofNames hc).trans (by rw [hpre.eq_of_length heq]))
          · exact Or.inr ⟨hc, hpre, hlt⟩

/-- The containers above a place have fewer names. -/
theorem length_names_lt {a : Resource} (h : r.WellFormed) (ha : a ∈ r.ancestors) :
    a.names.length < r.names.length := by
  have hwf := h.of_mem_ancestors ha
  rw [hwf.names_eq, h.names_eq]
  exact ((hwf.isAncestorOf_iff h).1 ((h.mem_ancestors_iff hwf).1 ha).2).2

/-- What is reached by going up is above, by its segments. -/
theorem isAncestorOf_of_mem_ancestors {a : Resource} (h : r.WellFormed) (ha : a ∈ r.ancestors) :
    a.isAncestorOf r :=
  ((h.mem_ancestors_iff (h.of_mem_ancestors ha)).1 ha).2

end WellFormed

/-- Only a project may be named without being a place, and above a project there is nothing but the
root. -/
theorem Named.isAncestorOf_of_mem_ancestors {r a : Resource} (h : r.Named)
    (ha : a ∈ r.ancestors) : a.isAncestorOf r := by
  cases h with
  | root => cases ha
  | project name =>
    obtain rfl := List.mem_singleton.1 ha
    rfl
  | path path kind => exact (Built.path path kind).wellFormed.isAncestorOf_of_mem_ancestors ha

end Resource

/-! ### Ranges -/

namespace Depth

open Resource (parent?_mem_ancestors mem_ancestors_of_parent? mem_lineage_of_parent?)

variable {depth : Depth} {r d m p : Resource}

/-- The containers at or below a resource whose children are in the range of a depth. -/
def Spans (r m : Resource) : Depth → Prop
  | zero => m = r
  | one => m = r ∨ m.parent? = some r
  | infinite => r ∈ m.lineage

/-- What lies below a resource in the range of a depth. -/
def Covers (r d : Resource) : Depth → Prop
  | zero => d.parent? = some r
  | one => d.parent? = some r ∨ ∃ p, d.parent? = some p ∧ p.parent? = some r
  | infinite => r ∈ d.ancestors

/-- A depth covers the children of the containers that it spans. -/
theorem covers_iff (hp : d.parent? = some p) : depth.Covers r d ↔ depth.Spans r p := by
  cases depth with
  | zero => simp [Covers, Spans, hp]
  | one => simp [Covers, Spans, hp]
  | infinite => rw [Covers, Spans, Resource.ancestors_of_parent? hp, Resource.lineage]

/-- What a depth spans from a resource has it in the lineage. -/
theorem Spans.mem_lineage (h : depth.Spans r m) : r ∈ m.lineage := by
  cases depth with
  | zero => exact h ▸ m.self_mem_lineage
  | one =>
    rcases h with rfl | hp
    · exact m.self_mem_lineage
    · exact (mem_lineage_of_parent? hp).2 (Or.inr r.self_mem_lineage)
  | infinite => exact h

/-- What a depth covers below a resource has it as an ancestor. -/
theorem Covers.mem_ancestors (h : depth.Covers r d) : r ∈ d.ancestors := by
  cases depth with
  | zero => exact parent?_mem_ancestors h
  | one =>
    rcases h with h | ⟨p, hp, hr⟩
    · exact parent?_mem_ancestors h
    · exact (mem_ancestors_of_parent? hp).2 (Or.inr (parent?_mem_ancestors hr))
  | infinite => exact h

/-- Every depth covers the children. -/
theorem covers_of_parent? (h : d.parent? = some r) : depth.Covers r d := by
  cases depth with
  | zero => exact h
  | one => exact Or.inl h
  | infinite => exact parent?_mem_ancestors h

end Depth

end StatusCache
