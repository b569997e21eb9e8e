/-
# What lies below a resource

A scan goes from a resource to its members, to their members, and so on (`Host.Leads`). Below the
resource a host is a finite tree if a container has every member once and as its child, and no chain
of members is longer than the height that the host gives (`Host.TreeBelow`).

A workspace is such a tree (`Workspace.treeBelow_host`). Its disk may have symbolic links that lead
back up, so what a container lists may go on forever; but the path of a member is longer than that
of its container, and too long a path is not read. Only a link of the workspace starts with a new
path, and along a chain of members every link is met once. Together these two make the measure that
goes down along a chain (`Workspace.room`).
-/

import Mathlib.Data.Finset.Card
import StatusCache.Proofs.Host
import StatusCache.Proofs.Place
import StatusCache.Proofs.Table

namespace StatusCache

/-- So many levels below a resource stands another, and all resources on the way from the one to the
other, both of them included, are of a kind. -/
inductive Host.Leads (h : Host) (through : Resource → Prop) : Nat → Resource → Resource → Prop
  | self {r : Resource} (hr : through r) : Leads h through 0 r r
  | member {n : Nat} {r m c : Resource} (hr : through r) (hcontainer : r.isContainer)
      (hm : m ∈ h.members r) (hc : Leads h through n m c) : Leads h through (n + 1) r c

/-- Below a resource the host is a finite tree. -/
structure Host.TreeBelow (h : Host) (r : Resource) : Prop where
  distinct : ∀ n c, h.Leads (fun _ => True) n r c → c.isContainer → (h.members c).Nodup
  children : ∀ n c, h.Leads (fun _ => True) n r c → c.isContainer →
    ∀ m ∈ h.members c, m.parent? = some c
  bounded : ∀ n c, h.Leads (fun _ => True) n r c → n ≤ h.height

namespace Host

variable {h : Host} {through : Resource → Prop} {n : Nat} {r m c : Resource}

/-- A way through some resources is one through more. -/
theorem Leads.mono {through' : Resource → Prop} (hc : h.Leads through n r c)
    (hsub : ∀ r, through r → through' r) : h.Leads through' n r c := by
  induction hc with
  | self hr => exact .self (hsub _ hr)
  | member hr hcontainer hm _ ih => exact .member (hsub _ hr) hcontainer hm ih

/-- The end of a way is on the way. -/
theorem Leads.last (hc : h.Leads through n r c) : through c := by
  induction hc with
  | self hr => exact hr
  | member _ _ _ _ ih => exact ih

/-- A tree holds below each of its members. -/
theorem TreeBelow.of_member (ht : h.TreeBelow r) (hcontainer : r.isContainer)
    (hm : m ∈ h.members r) : h.TreeBelow m where
  distinct n c hc := ht.distinct (n + 1) c (.member trivial hcontainer hm hc)
  children n c hc := ht.children (n + 1) c (.member trivial hcontainer hm hc)
  bounded n c hc := by
    have := ht.bounded (n + 1) c (.member trivial hcontainer hm hc)
    omega

/-- In a tree a member has the container as its parent. -/
theorem TreeBelow.parent? (ht : h.TreeBelow r) (hcontainer : r.isContainer)
    (hm : m ∈ h.members r) : m.parent? = some r :=
  ht.children 0 r (.self trivial) hcontainer m hm

/-- In a tree no member is listed twice. -/
theorem TreeBelow.nodup (ht : h.TreeBelow r) (hcontainer : r.isContainer) : (h.members r).Nodup :=
  ht.distinct 0 r (.self trivial) hcontainer

/-- What stands below a resource has it on its way up. -/
theorem Leads.mem_lineage (hc : h.Leads through n r c) (ht : h.TreeBelow r) : r ∈ c.lineage := by
  induction hc with
  | self _ => exact Resource.self_mem_lineage _
  | member _ hcontainer hm _ ih =>
    have hp := ht.parent? hcontainer hm
    exact Resource.mem_lineage_trans
      ((Resource.mem_lineage_of_parent? hp).2 (.inr (Resource.self_mem_lineage _)))
      (ih (ht.of_member hcontainer hm))

end Host

/-! ### Workspaces -/

namespace Disk

/-- A directory lists every name once. -/
theorem nodup_of_list? {d : Disk} {p : Path} {names : List Raw} (hd : d.nodes.Distinct)
    (h : d.list? p = some names) : names.Nodup := by
  unfold list? at h
  split at h
  · obtain rfl := Option.some.inj h
    refine List.Nodup.filterMap (fun a a' name ha ha' => ?_) hd
    split at ha <;> split at ha'
    next hplace hplace' =>
      rw [← List.dropLast_append_getLast? name ha, ← List.dropLast_append_getLast? name ha',
        hplace.1, hplace'.1]
    all_goals simp_all
  · cases h

/-- A path that is read is not longer than the disk allows. -/
theorem length_le_of_list? {d : Disk} {p : Path} {names : List Raw}
    (h : d.list? p = some names) : p.raw.bytes.length ≤ 4095 := by
  by_contra hlong
  have hfind : d.find true p = .error .absent ∨ d.find true p = .error .unusable := by
    unfold find
    split
    · exact .inl rfl
    · exact .inr (if_pos (.inr (by omega)))
  unfold list? at h
  rcases hfind with hfind | hfind <;> rw [hfind] at h <;> cases h

end Disk

namespace Workspace

variable {w : Workspace} {d : Disk} {r c m : Resource} {n : Nat}

/-- The members of a resource are what the disk lists at its place, but for the metadata. -/
theorem mem_members {path : Path} (hroot : r.kind ≠ .root) (hpath : w.location? r = some path) :
    m ∈ w.members d r ↔ ∃ name ∈ (d.list? path).getD [], name ≠ w.metadata ∧
      m = if d.isDir (path.join name) then r.folderAt name.text else r.fileAt name.text := by
  rw [members, if_neg hroot, hpath]
  simp only [Resource.mem_sort, List.mem_map, List.mem_filter, decide_eq_true_eq, and_assoc,
    @eq_comm _ m]

/-- A member is named by one more segment, that the disk lists. -/
theorem exists_of_mem_members (hd : d.Named) (h : r.WellFormed) (hroot : r.kind ≠ .root)
    (hm : m ∈ w.members d r) :
    ∃ path names name kind, w.location? r = some path ∧ d.list? path = some names ∧
      Text.Segment '/' name ∧ m = Resource.ofNames (r.segments ++ [name]) kind := by
  cases hpath : w.location? r with
  | none =>
    rw [members, if_neg hroot, hpath] at hm
    cases hm
  | some path =>
    obtain ⟨name, hname, -, rfl⟩ := (mem_members hroot hpath).1 hm
    cases hlist : d.list? path with
    | none => simp [hlist] at hname
    | some names =>
      have hsegment := hd.of_mem_list? hlist (by simpa [hlist] using hname)
      have hnames := Resource.pathNames_of_segment hsegment
      split
      · exact ⟨path, names, name.text, .folder, rfl, hlist, hsegment, by
          rw [Resource.folderAt, hnames, h.names_eq]⟩
      · exact ⟨path, names, name.text, .file, rfl, hlist, hsegment, by
          rw [Resource.fileAt, hnames, h.names_eq]⟩

/-- The members of a container other than the root are proper places, and not the root. -/
theorem proper_of_mem_members (hd : d.Named) (h : r.Proper) (hroot : r.kind ≠ .root)
    (hm : m ∈ w.members d r) : m.Proper ∧ m.kind ≠ .root := by
  have hne : r.segments ≠ [] := fun hnil => hroot (h.toWellFormed.kind_eq_root.2 hnil)
  obtain ⟨-, -, name, kind, -, -, hname, rfl⟩ := exists_of_mem_members hd h.toWellFormed hroot hm
  have hsegments : ∀ s ∈ r.segments ++ [name], Text.Segment '/' s := by
    intro s hs
    rcases List.mem_append.1 hs with hs | hs
    · exact h.segment s hs
    · exact List.mem_singleton.1 hs ▸ hname
  refine ⟨⟨Resource.wellFormed_ofNames (fun s hs => (hsegments s hs).1) kind, fun s hs => ?_,
    fun _ => ?_⟩, Resource.kind_ofNames (by simp) kind⟩
  · rw [Resource.segments_ofNames] at hs
    exact (hsegments s hs).2
  · rw [Resource.segments_ofNames, List.length_append]
    have := List.length_pos_iff.2 hne
    simp only [List.length_singleton]
    omega

/-- A container has every member once, if no two names on the disk read alike. -/
theorem nodup_members (hd : d.Named) (hlegible : d.Legible) (hdistinct : d.nodes.Distinct)
    (hroot : r.kind ≠ .root) : (w.members d r).Nodup := by
  unfold members
  rw [if_neg hroot]
  split
  · exact List.nodup_nil
  next path _ =>
    rw [Resource.sort, (List.mergeSort_perm _ _).nodup_iff]
    cases hlist : d.list? path with
    | none => simp
    | some names =>
      refine List.Nodup.map_on (fun a ha b hb heq => ?_)
        ((Disk.nodup_of_list? hdistinct hlist).filter _)
      have hsegments : ∀ name ∈ names, ∀ c : Bool,
          (if c then r.folderAt name.text else r.fileAt name.text).segments =
            r.names ++ [name.text] := by
        intro name hname c
        have hnames := Resource.pathNames_of_segment (hd.of_mem_list? hlist hname)
        cases c
        · rw [if_neg Bool.false_ne_true, Resource.fileAt, hnames, Resource.segments_ofNames]
        · rw [if_pos rfl, Resource.folderAt, hnames, Resource.segments_ofNames]
      have hsame := congrArg Resource.segments heq
      have ha := List.mem_of_mem_filter ha
      have hb := List.mem_of_mem_filter hb
      rw [hsegments a ha, hsegments b hb] at hsame
      exact hlegible.eq_of_mem_list? hlist ha hb (by simpa using hsame)

/-! ### Paths grow -/

/-- Below a path stand the same bytes before whatever is no path of its own. -/
theorem exists_join (p : Path) : ∃ front : Raw, p.raw.bytes.length ≤ front.bytes.length ∧
    ∀ relative : Raw, relative.isAbsolute = false → (p.join relative).raw = front ++ relative := by
  cases hopen : p.raw.isOpen with
  | true => exact ⟨p.raw, le_rfl, fun relative h => by simp [Path.join, h, hopen]⟩
  | false =>
    refine ⟨p.raw ++ "/", ?_, fun relative h => by simp [Path.join, h, hopen]⟩
    rw [Raw.bytes_append, List.length_append]
    omega

/-- One more segment makes a longer path. -/
theorem length_placeBelow_lt (location : Path) {below : List String} {name : String}
    (hbelow : ∀ s ∈ below, Text.Segment '/' s) (hname : Text.Segment '/' name) :
    (placeBelow location (Text.join '/' below)).raw.bytes.length <
      (placeBelow location (Text.join '/' (below ++ [name]))).raw.bytes.length := by
  have hmore : ∀ s ∈ below ++ [name], Text.Segment '/' s := by
    intro s hs
    rcases List.mem_append.1 hs with hs | hs
    · exact hbelow s hs
    · exact List.mem_singleton.1 hs ▸ hname
  have hrelative : ∀ {names : List String}, (∀ s ∈ names, Text.Segment '/' s) →
      (Raw.ofText (Text.join '/' names)).isAbsolute = false := fun h => by
    rw [Bool.eq_false_iff, ne_eq, Raw.isAbsolute_ofText]
    exact (Text.trimmed_join h).head
  have hsize : 0 < (Raw.ofText name).bytes.length := List.length_pos_iff.2 fun hnil =>
    hname.1 (Raw.ofText_inj.1 (congrArg Raw.mk hnil))
  have hdeep : Text.join '/' (below ++ [name]) ≠ "" := fun hempty => by
    simpa using (Text.join_eq_empty hmore).1 hempty
  obtain ⟨front, hfront, hjoin⟩ := exists_join location
  have hplace : (placeBelow location (Text.join '/' (below ++ [name]))).raw =
      front ++ Text.join '/' (below ++ [name]) := by
    rw [placeBelow, if_neg hdeep, hjoin _ (hrelative hmore)]
  rw [hplace, Raw.bytes_append, List.length_append]
  by_cases hne : below = []
  · subst hne
    rw [placeBelow, if_pos ((Text.join_eq_empty hbelow).2 rfl), List.nil_append,
      Text.join_singleton]
    omega
  · have hjoined : Text.join '/' (below ++ [name]) = Text.join '/' below ++ ("/" ++ name) := by
      refine String.toList_injective ?_
      rw [Text.toList_join_append hne (by simp), Text.join_singleton, String.toList_append,
        String.toList_append]
      rfl
    rw [placeBelow, if_neg fun hempty => hne ((Text.join_eq_empty hbelow).1 hempty),
      hjoin _ (hrelative hbelow), hjoined, Raw.ofText_append, Raw.ofText_append]
    simp only [Raw.bytes_append, List.length_append]
    omega

/-- What is in a container has a longer path than that, unless it is a link. -/
theorem location?_member (hm : m.Proper) (hp : m.parent? = some c) (hroot : c.kind ≠ .root)
    (hlink : w.links.get? m = none) {path : Path} (hpath : w.location? c = some path) :
    ∃ longer, w.location? m = some longer ∧
      path.raw.bytes.length < longer.raw.bytes.length := by
  have hc := hm.of_parent? hp
  have hname := hm.segment_name hp
  -- No link of its own, so both go by the same link above them, or by the location of the project.
  have habove : w.linkAbove? m = w.linkAbove? c := by
    rw [linkAbove?, linkAbove?, List.findSome?_cons, hlink, Resource.ancestors_of_parent? hp]
    rfl
  rw [location?] at hpath ⊢
  rw [habove]
  cases hfound : w.linkAbove? c with
  | some found =>
    obtain ⟨a, target⟩ := found
    have ha : a ∈ c.lineage := by
      obtain ⟨b, hb, hget⟩ := List.exists_of_findSome?_eq_some hfound
      obtain ⟨_, -, heq⟩ := Option.map_eq_some_iff.1 hget
      obtain ⟨rfl, -⟩ := Prod.mk.inj heq
      exact hb
    obtain ⟨below, hbelow⟩ := hc.exists_split ha
    have hsegments : m.segments = a.segments ++ (below ++ [m.name]) := by
      rw [hm.segments_of_parent? hp, hbelow, List.append_assoc]
    rw [hfound] at hpath
    simp only at hpath ⊢
    rw [hc.relativeTo?_eq ha hbelow] at hpath
    rw [hm.relativeTo?_eq ((Resource.mem_lineage_of_parent? hp).2 (.inr ha)) hsegments]
    obtain rfl := Option.some.inj hpath
    exact ⟨_, rfl, length_placeBelow_lt target
      (fun s hs => hc.segment s (by rw [hbelow]; exact List.mem_append_right _ hs)) hname⟩
  | none =>
    rw [hfound] at hpath
    simp only [Option.bind_eq_bind] at hpath ⊢
    obtain ⟨project, hproject, hpath⟩ := Option.bind_eq_some_iff.1 hpath
    obtain ⟨p, hregistered, hpath⟩ := Option.bind_eq_some_iff.1 hpath
    obtain rfl := Option.some.inj hpath
    have hnames : m.projectPath = Text.join '/' (c.names.drop 1 ++ [m.name]) := by
      rw [Resource.projectPath, hm.names_eq, hm.segments_of_parent? hp, hc.names_eq,
        List.drop_append_of_le_length]
      refine List.length_pos_iff.2 fun hnil => hroot (hc.toWellFormed.kind_eq_root.2 hnil)
    refine ⟨_, by rw [← Resource.project?_of_parent? hp hroot, hproject, Option.bind_some,
      hregistered]; rfl, ?_⟩
    rw [hnames]
    refine length_placeBelow_lt p.location (fun s hs => ?_) hname
    rw [hc.names_eq] at hs
    exact hc.segment s (List.mem_of_mem_drop hs)

/-! ### The measure -/

/-- The links of a workspace that lie strictly below a resource. -/
def linksBelow (w : Workspace) (r : Resource) : Finset Resource :=
  w.links.keys.toFinset.filter (r ∈ ·.ancestors)

/-- How far a chain of members can go on from a resource: through all links below, and from each of
these, and the resource itself, until the path is too long to be read. -/
def room (w : Workspace) (r : Resource) : Nat :=
  (w.linksBelow r).card * Disk.height + (4096 - ((w.location? r).map (·.raw.bytes.length)).getD 0)

/-- There is room for less than all links and the height of the disk. -/
theorem room_lt (w : Workspace) (r : Resource) : w.room r < (w.links.size + 1) * Disk.height := by
  have hcard : (w.linksBelow r).card ≤ w.links.size :=
    (Finset.card_filter_le _ _).trans ((List.toFinset_card_le _).trans w.links.length_keys.le)
  have hmul := Nat.mul_le_mul_right Disk.height hcard
  unfold room Disk.height at *
  omega

/-- A member has less room below it than its container. -/
theorem room_member (hd : d.Named) (hr : r.Proper) (hroot : r.kind ≠ .root) (hr' : r.isContainer)
    (hm : m ∈ w.members d r) : w.room m < w.room r := by
  have hp := parent?_of_mem_members hd hr.toWellFormed hr' hm
  obtain ⟨hproper, -⟩ := proper_of_mem_members hd hr hroot hm
  obtain ⟨path, names, -, -, hpath, hlist, -⟩ :=
    exists_of_mem_members hd hr.toWellFormed hroot hm
  have hshort := Disk.length_le_of_list? hlist
  have hsub : w.linksBelow m ⊆ w.linksBelow r := fun k hk => by
    obtain ⟨hkey, hbelow⟩ := Finset.mem_filter.1 hk
    exact Finset.mem_filter.2
      ⟨hkey, Resource.mem_ancestors_trans (Resource.parent?_mem_ancestors hp) hbelow⟩
  have hcard := Finset.card_le_card hsub
  unfold room
  rw [hpath, Option.map_some, Option.getD_some]
  cases hlink : w.links.get? m with
  | none =>
    obtain ⟨longer, hlonger, hlt⟩ := location?_member hproper hp hroot hlink hpath
    rw [hlonger, Option.map_some, Option.getD_some]
    have hmul := Nat.mul_le_mul_right Disk.height hcard
    omega
  | some target =>
    have hkey : m ∈ w.links.keys.toFinset :=
      List.mem_toFinset.2 (Table.mem_keys.2 (by rw [hlink]; rfl))
    have hstrict : (w.linksBelow m).card < (w.linksBelow r).card := by
      refine Finset.card_lt_card ⟨hsub, fun hback => ?_⟩
      have hmem := hback (Finset.mem_filter.2 ⟨hkey, Resource.parent?_mem_ancestors hp⟩)
      exact Resource.not_mem_ancestors_self m (Finset.mem_filter.1 hmem).2
    have hmul := Nat.mul_le_mul_right Disk.height (Nat.succ_le_of_lt hstrict)
    rw [Nat.succ_mul] at hmul
    unfold Disk.height at *
    omega

/-- A chain of members leads to proper places, and is not longer than the room above its end. -/
theorem leads_host (hd : d.Named) (hr : r.Proper) (hroot : r.kind ≠ .root)
    (hc : (w.host d).Leads (fun _ => True) n r c) :
    c.Proper ∧ c.kind ≠ .root ∧ n + w.room c ≤ w.room r := by
  induction hc with
  | self _ => exact ⟨hr, hroot, by omega⟩
  | member _ hcontainer hm _ ih =>
    obtain ⟨hproper, hkind⟩ := proper_of_mem_members hd hr hroot hm
    obtain ⟨hc, hckind, hle⟩ := ih hproper hkind
    have := room_member hd hr hroot hcontainer hm
    exact ⟨hc, hckind, by omega⟩

/-- **Below every place a workspace is a finite tree**, as long as the names on the disk are those of
a file system, no two of them read alike, and the disk has every node once. -/
theorem treeBelow_host (w : Workspace) (hd : d.Named) (hlegible : d.Legible)
    (hdistinct : d.nodes.Distinct) (hr : r.Proper) (hroot : r.kind ≠ .root) :
    (w.host d).TreeBelow r where
  distinct n c hc _ := by
    obtain ⟨-, hkind, -⟩ := leads_host hd hr hroot hc
    exact nodup_members hd hlegible hdistinct hkind
  children n c hc hcontainer m hm := by
    obtain ⟨hproper, -⟩ := leads_host hd hr hroot hc
    exact parent?_of_mem_members hd hproper.toWellFormed hcontainer hm
  bounded n c hc := by
    obtain ⟨-, -, hle⟩ := leads_host hd hr hroot hc
    have := w.room_lt r
    change n ≤ (w.links.size + 1) * Disk.height
    omega

end Workspace
end StatusCache
