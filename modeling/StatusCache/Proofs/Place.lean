/-
# Places and their paths

A workspace holds projects, and files and folders inside of them, whose segments are nonempty and
hold no slash (`Resource.Proper`). Among these a path tells the segments (`Proper.segments_eq`), and
it lies below the path of a project if and only if the place lies in the project
(`Proper.within_of_pathWithin`). What a place is called below a container above it is the rest of its
segments (`WellFormed.relativeTo?_eq`).
-/

import StatusCache.Proofs.Resource
import StatusCache.Proofs.Text.Segments

namespace StatusCache

namespace Resource

variable {r a p project : Resource} {xs : List String}

/-- A place as a workspace has it: its segments are those of a path, and a file lies in a
project. -/
structure Proper (r : Resource) : Prop extends WellFormed r where
  plain : ∀ s ∈ r.segments, '/' ∉ s.toList
  housed : r.kind = .file → 2 ≤ r.segments.length

/-- A project that is named by a segment has it as its only one. -/
theorem project_eq {name : String} (h : Text.Segment '/' name) :
    Resource.project name = ⟨[name], .project⟩ := by
  have hone : ∀ s ∈ [name], Text.Segment '/' s := by simpa using h
  have htrim := Text.trim_join hone
  have hsplit := Text.split_join (List.cons_ne_nil name []) fun s hs => (hone s hs).2
  rw [Text.join_singleton] at htrim hsplit
  rw [Resource.project, htrim, hsplit]

/-- The project of a resource is named by its first name. -/
theorem project?_of_names {name : String} {below : List String} (hname : Text.Segment '/' name)
    (hnames : r.names = name :: below) : r.project? = some ⟨[name], .project⟩ := by
  rw [project?, hnames, List.head?_cons, Option.map_some, project_eq hname]

/-- A resource in a project has the name of the project first. -/
theorem exists_names_of_project? (hplain : ∀ s ∈ r.segments, '/' ∉ s.toList)
    (h : r.project? = some project) :
    ∃ name below, Text.Segment '/' name ∧ r.names = name :: below ∧
      project = ⟨[name], .project⟩ := by
  cases hnames : r.names with
  | nil => simp [project?, hnames] at h
  | cons name below =>
    have hmem : name ∈ r.names := by simp [hnames]
    obtain ⟨hsegment, hne⟩ := List.mem_filter.1 hmem
    have hname : Text.Segment '/' name := ⟨by simpa using hne, hplain name hsegment⟩
    rw [project?_of_names hname hnames] at h
    exact ⟨name, below, hname, rfl, (Option.some.inj h).symm⟩

namespace WellFormed

/-- A place is named by the segments of a container above it, and some more. -/
theorem exists_split (h : r.WellFormed) (ha : a ∈ r.lineage) :
    ∃ below, r.segments = a.segments ++ below := by
  rcases List.mem_cons.1 ha with rfl | habove
  · exact ⟨[], (List.append_nil _).symm⟩
  · have hwf := h.of_mem_ancestors habove
    obtain ⟨-, hancestor⟩ := (h.mem_ancestors_iff hwf).1 habove
    obtain ⟨below, hbelow⟩ := ((hwf.isAncestorOf_iff h).1 hancestor).1
    exact ⟨below, hbelow.symm⟩

/-- A place is named by the segments of its parent, and one of its own. -/
theorem segments_of_parent? (h : r.WellFormed) (hp : r.parent? = some p) :
    r.segments = p.segments ++ [r.name] := by
  have hne : r.segments ≠ [] := fun hnil => by
    rw [parent?_eq_none.2 (h.kind_eq_root.2 hnil)] at hp
    cases hp
  rw [h.parent?_eq hne] at hp
  obtain rfl := Option.some.inj hp
  rw [segments_ofNames, name, List.getLastD_eq_getLast?, List.getLast?_eq_some_getLast hne,
    Option.getD_some, List.dropLast_concat_getLast]

/-- What a place is called below another one of which the segments begin its own is the rest of
them. -/
theorem relativeTo?_of_segments (h : r.WellFormed) (ha : a.WellFormed) {below : List String}
    (hbelow : r.segments = a.segments ++ below) : r.relativeTo? a = some (Text.join '/' below) := by
  unfold relativeTo?
  split
  next hpath =>
    have hjoin := (String.append_right_inj "/").1 hpath
    rw [hbelow] at hjoin
    have hnil : below = [] := Text.eq_nil_of_join_append
      (fun s hs => h.names s (by rw [hbelow]; exact List.mem_append_right _ hs)) hjoin
    rw [hnil]
    rfl
  next hpath =>
    have hlonger : a.segments.length < r.segments.length := by
      refine lt_of_le_of_ne (by simp [hbelow]) fun heq => hpath ?_
      have hnil : below = [] := by simpa [hbelow] using heq
      rw [path, path, hbelow, hnil, List.append_nil]
    rw [if_pos ((ha.isAncestorOf_iff h).2 ⟨hbelow ▸ List.prefix_append _ _, hlonger⟩), h.names_eq,
      ha.names_eq, hbelow, List.drop_left]

/-- What a place is called below a container above it is the rest of its segments. -/
theorem relativeTo?_eq (h : r.WellFormed) (ha : a ∈ r.lineage) {below : List String}
    (hbelow : r.segments = a.segments ++ below) :
    r.relativeTo? a = some (Text.join '/' below) :=
  h.relativeTo?_of_segments (h.of_mem_lineage ha) hbelow

end WellFormed

namespace Proper

/-- The segments of a proper resource are segments of a path. -/
theorem segment (h : r.Proper) : ∀ s ∈ r.segments, Text.Segment '/' s :=
  fun s hs => ⟨h.names s hs, h.plain s hs⟩

/-- The parent of a proper resource is proper. -/
theorem of_parent? (h : r.Proper) (hp : r.parent? = some p) : p.Proper := by
  have hr : r.segments ≠ [] := fun hnil => by
    rw [parent?_eq_none.2 (h.kind_eq_root.2 hnil)] at hp
    cases hp
  have hparent := hp
  rw [h.parent?_eq hr] at hparent
  obtain rfl := Option.some.inj hparent
  refine ⟨h.parent hp, fun s hs => ?_, fun hfile => ?_⟩
  · rw [segments_ofNames] at hs
    exact h.plain s (List.mem_of_mem_dropLast hs)
  · have hcontainer := isContainer_of_parent? hp
    rw [isContainer, hfile] at hcontainer
    cases hcontainer

/-- The containers above a place are places. -/
theorem of_mem_lineage (h : r.Proper) (ha : a ∈ r.lineage) : a.Proper := by
  induction r using parent_induction with
  | step r ih =>
    cases hp : r.parent? with
    | none =>
      rw [lineage, ancestors_of_parent?_none hp, List.mem_singleton] at ha
      exact ha ▸ h
    | some p =>
      rcases (mem_lineage_of_parent? hp).1 ha with rfl | ha
      · exact h
      · exact ih p hp (h.of_parent? hp) ha

/-! ### Segments -/

/-- The segments are told by the path. -/
theorem segments_eq (hr : r.Proper) (ha : a.Proper) (h : r.path = a.path) :
    r.segments = a.segments :=
  Text.join_injective hr.segment ha.segment ((String.append_right_inj "/").1 h)

/-- A project has one segment, its name. -/
theorem segments_project (h : project.Proper) (hkind : project.kind = .project) :
    ∃ name, project.segments = [name] := by
  have hshape := h.shape
  rw [hkind] at hshape
  exact List.length_eq_one_iff.1 hshape

/-- The name of a proper resource below another one is a segment. -/
theorem segment_name (h : r.Proper) (hp : r.parent? = some p) : Text.Segment '/' r.name :=
  h.segment r.name (by rw [h.segments_of_parent? hp]; simp)

/-- The project of a place is named by its first segment. -/
theorem project?_eq (h : r.Proper) {name : String} {below : List String}
    (hsegments : r.segments = name :: below) : r.project? = some ⟨[name], .project⟩ :=
  project?_of_names (h.segment name (by rw [hsegments]; simp)) (by rw [h.names_eq, hsegments])

/-- The project of a proper resource is named by its first segment. -/
theorem exists_project (h : r.Proper) (hproject : r.project? = some project) :
    ∃ name below, r.segments = name :: below ∧ project = ⟨[name], .project⟩ := by
  cases hsegments : r.segments with
  | nil => simp [project?, h.names_eq, hsegments] at hproject
  | cons name below =>
    rw [h.project?_eq hsegments] at hproject
    exact ⟨name, below, rfl, (Option.some.inj hproject).symm⟩

/-- The parent of what is inside of a project is not the root. -/
theorem kind_ne_root_of_parent? (h : r.Proper) (hp : r.parent? = some p)
    (hproject : r.project? = some project) (hinside : r ≠ project) : p.kind ≠ .root := by
  intro hroot
  obtain ⟨name, below, hsegments, rfl⟩ := h.exists_project hproject
  have hone := h.segments_of_parent? hp
  rw [(h.of_parent? hp).kind_eq_root.1 hroot, List.nil_append, hsegments] at hone
  obtain ⟨-, rfl⟩ := List.cons.inj hone
  have hcontainer : r.isContainer := by
    cases hk : r.kind with
    | file => simpa [hsegments] using h.housed hk
    | _ => simp [isContainer, hk, Kind.isContainer]
  exact hinside (by rw [h.eq_ofNames hcontainer, hsegments]; rfl)

end Proper

/-- A path names a place, unless it is that of a file outside of projects. -/
theorem proper_ofPath (path : String) (kind : Kind)
    (h : kind.isContainer ∨ 2 ≤ (pathNames path).length) : (ofPath path kind).Proper where
  toWellFormed := (Built.path path kind).wellFormed
  plain s hs := by
    rw [ofPath, segments_ofNames] at hs
    exact Text.not_mem_of_mem_split (List.mem_filter.1 hs).1
  housed hfile := by
    rw [ofPath, segments_ofNames]
    refine h.resolve_left fun hcontainer => ?_
    unfold ofPath ofNames at hfile
    split at hfile
    · cases hfile
    · simp [hcontainer] at hfile
    · simp [hcontainer] at hfile

/-! ### The names in a path -/

/-- The names of a path are segments. -/
theorem segment_of_mem_pathNames {path name : String} (h : name ∈ pathNames path) :
    Text.Segment '/' name := by
  obtain ⟨hname, hne⟩ := List.mem_filter.1 h
  exact ⟨by simpa using hne, Text.not_mem_of_mem_split hname⟩

/-- The names of joined segments are these. -/
theorem pathNames_join (h : ∀ s ∈ xs, Text.Segment '/' s) : pathNames (Text.join '/' xs) = xs := by
  by_cases hne : xs = []
  · subst hne
    rfl
  · rw [pathNames, Text.split_join hne fun s hs => (h s hs).2]
    exact List.filter_eq_self.2 fun s hs => by simpa using (h s hs).1

/-- A path behind another one adds its names. -/
theorem pathNames_append (path path' : String) :
    pathNames (path ++ "/" ++ path') = pathNames path ++ pathNames path' := by
  have hsplit : Text.split '/' (path ++ "/" ++ path') =
      Text.split '/' path ++ Text.split '/' path' := by
    simp only [Text.split, ← List.map_append, ← Text.splitRuns_append_append]
    simp
  rw [pathNames, hsplit, List.filter_append, pathNames, pathNames]

/-- No name on the way is empty. -/
theorem forall_mem_names_append (relative : String) :
    ∀ s ∈ r.names ++ pathNames relative, s ≠ "" := by
  intro s hs
  rcases List.mem_append.1 hs with hs | hs
  · simpa using (List.mem_filter.1 hs).2
  · exact (segment_of_mem_pathNames hs).1

/-- A folder below a resource adds the names of the relative path. -/
theorem names_folderAt (r : Resource) (relative : String) :
    (r.folderAt relative).names = r.names ++ pathNames relative := by
  unfold folderAt
  split
  next hbelow => rw [hbelow, List.append_nil]
  next => exact names_ofNames (forall_mem_names_append relative) .folder

/-- A file below a resource adds the names of the relative path. -/
theorem names_fileAt (r : Resource) (relative : String) :
    (r.fileAt relative).names = r.names ++ pathNames relative :=
  names_ofNames (forall_mem_names_append relative) .file

/-- A folder below a well-formed resource is well-formed. -/
theorem WellFormed.folderAt (h : r.WellFormed) (relative : String) :
    (r.folderAt relative).WellFormed := by
  unfold Resource.folderAt
  split
  · exact h
  · exact wellFormed_ofNames (forall_mem_names_append relative) .folder

/-- A file below any resource is well-formed. -/
theorem wellFormed_fileAt (r : Resource) (relative : String) : (r.fileAt relative).WellFormed :=
  wellFormed_ofNames (forall_mem_names_append relative) .file

/-- Slashes at the ends of a path do not count. -/
theorem pathNames_trim (path : String) : pathNames (Text.trim '/' path) = pathNames path := by
  have hnames (cs : List Char) : pathNames (String.ofList cs) =
      ((Text.splitRuns '/' cs).filter (· ≠ [])).map String.ofList := by
    rw [pathNames, Text.split, String.toList_ofList, List.filter_map]
    congr 1
    have hempty (run : List Char) : String.ofList run = "" ↔ run = [] := by
      rw [← String.toList_inj, String.toList_ofList, String.toList_empty]
    exact List.filter_congr fun run _ => by simp [hempty]
  -- Runs of slashes split into empty runs only.
  have hslashes (n : Nat) : (Text.splitRuns '/' (List.replicate n '/')).filter (· ≠ []) = [] := by
    induction n with
    | zero => rfl
    | succ n ih => rw [List.replicate_succ, Text.splitRuns, if_pos rfl]; simpa using ih
  have hfront (n : Nat) (cs : List Char) :
      (Text.splitRuns '/' (List.replicate n '/' ++ cs)).filter (· ≠ []) =
        (Text.splitRuns '/' cs).filter (· ≠ []) := by
    induction n with
    | zero => rfl
    | succ n ih =>
      rw [List.replicate_succ, List.cons_append, Text.splitRuns, if_pos rfl]
      simpa using ih
  have hback (n : Nat) (cs : List Char) :
      (Text.splitRuns '/' (cs ++ List.replicate n '/')).filter (· ≠ []) =
        (Text.splitRuns '/' cs).filter (· ≠ []) := by
    cases n with
    | zero => rw [List.replicate_zero, List.append_nil]
    | succ n =>
      rw [List.replicate_succ, Text.splitRuns_append_append, List.filter_append, hslashes,
        List.append_nil]
  have hrest := List.takeWhile_append_dropWhile (p := (· = '/')) (l := path.toList)
  have hall : path.toList.takeWhile (· = '/') =
      List.replicate (path.toList.takeWhile (· = '/')).length '/' :=
    List.eq_replicate_of_mem fun c hc => by
      simpa using List.all_eq_true.1 List.all_takeWhile c hc
  obtain ⟨n, htail⟩ := Text.exists_dropEnd_append '/' (path.toList.dropWhile (· = '/'))
  rw [Text.trim, hnames, ← hback n, ← htail, ← hfront _, ← hall, hrest, ← hnames,
    String.ofList_toList]

/-- A text without slashes at its ends has names, unless it is empty. -/
theorem pathNames_trim_eq_nil {text : String} :
    pathNames (Text.trim '/' text) = [] ↔ Text.trim '/' text = "" := by
  refine ⟨fun hnone => ?_, fun hempty => by rw [hempty]; rfl⟩
  cases htext : (Text.trim '/' text).toList with
  | nil => exact String.toList_eq_nil_iff.1 htext
  | cons c cs =>
    have hc : c ≠ '/' := fun heq => (Text.trimmed_trim '/' text).head (by rw [htext, heq]; rfl)
    -- The first name begins with the first character.
    rw [pathNames, Text.split, htext, Text.splitRuns, if_neg hc] at hnone
    cases hruns : Text.splitRuns '/' cs with
    | nil => exact absurd hruns (Text.splitRuns_ne_nil '/' cs)
    | cons run runs => simp [hruns] at hnone

/-! ### Paths in a project -/

/-- Whether a resource is a project or lies in it. -/
def Within (project r : Resource) : Prop := r = project ∨ project.isAncestorOf r

/-- Whether a path is that of a project, or lies below it. -/
def PathWithin (project : Resource) (path : String) : Prop :=
  path = project.path ∨ (project.path ++ "/").toList <+: path.toList

/-- A project is above what has its name and at least one more. -/
theorem isAncestorOf_project {name : String} (h : project.segments = [name])
    (hkind : project.kind = .project) :
    project.isAncestorOf r ↔ ∃ next below, r.segments = name :: next :: below := by
  have hbegins : project.isAncestorOf r ↔ [name] <+: r.segments ∧ 1 < r.segments.length := by
    simp [isAncestorOf, hkind, h]
  rw [hbegins]
  rcases r.segments with _ | ⟨first, _ | ⟨next, below⟩⟩
  · simp
  · simp
  · simp only [List.cons_prefix_cons, List.nil_prefix, and_true, List.length_cons]
    constructor
    · rintro ⟨rfl, -⟩
      exact ⟨next, below, rfl⟩
    · rintro ⟨_, _, h⟩
      obtain ⟨rfl, -⟩ := List.cons.inj h
      exact ⟨rfl, by omega⟩

/-- No segment of what is named holds a slash. -/
theorem Named.plain (h : r.Named) : ∀ s ∈ r.segments, '/' ∉ s.toList := by
  intro s hs
  cases h with
  | root => cases hs
  | project name => exact Text.not_mem_of_mem_split hs
  | path path kind =>
    rw [ofPath, segments_ofNames] at hs
    exact (segment_of_mem_pathNames hs).2

/-- **One resource is above another if its path goes on, behind a slash, to that of the other.** -/
theorem isAncestorOf_iff_path (hkind : a.kind ≠ .root) (hne : a.segments ≠ [])
    (ha : ∀ s ∈ a.segments, '/' ∉ s.toList) (hr : ∀ s ∈ r.segments, '/' ∉ s.toList) :
    a.isAncestorOf r ↔ (a.path ++ "/").toList <+: r.path.toList := by
  rw [isAncestorOf_iff_segments hkind, path, path]
  simp only [String.toList_append]
  constructor
  · rintro ⟨⟨below, hbelow⟩, hlength⟩
    have hmore : below ≠ [] := by
      rintro rfl
      rw [List.append_nil] at hbelow
      rw [hbelow] at hlength
      exact lt_irrefl _ hlength
    refine ⟨(Text.join '/' below).toList, ?_⟩
    rw [← hbelow, Text.toList_join_append hne hmore]
    simp
  · rintro ⟨rest, hrest⟩
    have hjoin : (Text.join '/' r.segments).toList =
        (Text.join '/' a.segments).toList ++ '/' :: rest := by
      simpa using hrest.symm
    have hsome : r.segments ≠ [] := by
      intro hnil
      rw [hnil] at hjoin
      simp [Text.join, Text.joinRuns] at hjoin
    -- Splitting at the slash behind the upper path gives its segments back.
    have hsplit : r.segments = a.segments ++ (Text.splitRuns '/' rest).map String.ofList := by
      calc r.segments = Text.split '/' (Text.join '/' r.segments) :=
            (Text.split_join hsome hr).symm
        _ = Text.split '/' (Text.join '/' a.segments) ++
              (Text.splitRuns '/' rest).map String.ofList := by
            rw [Text.split, hjoin, Text.splitRuns_append_append, List.map_append, Text.split]
        _ = a.segments ++ (Text.splitRuns '/' rest).map String.ofList := by
            rw [Text.split_join hne ha]
    refine ⟨⟨_, hsplit.symm⟩, ?_⟩
    have hpos := List.length_pos_iff.2 (Text.splitRuns_ne_nil '/' rest)
    rw [hsplit, List.length_append, List.length_map]
    omega

/-- Behind the first segment, the path goes on with a slash. -/
theorem toList_path {first next : String} {below : List String}
    (h : r.segments = first :: next :: below) :
    r.path.toList = '/' :: first.toList ++ '/' :: (Text.join '/' (next :: below)).toList := by
  rw [path, h, String.toList_append, Text.join, String.toList_ofList]
  simp [Text.join, Text.joinRuns]

/-- The path of a project is a slash and its name. -/
theorem toList_path_project {name : String} (h : project.segments = [name]) :
    project.path.toList = '/' :: name.toList := by
  rw [path, h, String.toList_append, Text.join, String.toList_ofList]
  simp [Text.joinRuns]

/-- What lies in a project has a path in it. -/
theorem pathWithin_of_within {name : String} (h : project.segments = [name])
    (hkind : project.kind = .project) (hr : project.Within r) : project.PathWithin r.path := by
  rcases hr with rfl | habove
  · exact Or.inl rfl
  · obtain ⟨next, below, hsegments⟩ := (isAncestorOf_project h hkind).1 habove
    refine Or.inr ⟨(Text.join '/' (next :: below)).toList, ?_⟩
    rw [toList_path hsegments, String.toList_append, toList_path_project h]
    simp

/-- **A place with a path in a project lies in the project.** -/
theorem Proper.within_of_pathWithin (hr : r.Proper) (hproject : project.Proper)
    (hkind : project.kind = .project) (h : project.PathWithin r.path) : project.Within r := by
  obtain ⟨name, hname⟩ := hproject.segments_project hkind
  rcases h with hpath | hbelow
  · have hsegments := hr.segments_eq hproject hpath
    have hcontainer : r.isContainer := by
      cases hk : r.kind with
      | file =>
        have := hr.housed hk
        rw [hsegments, hname] at this
        simp at this
      | _ => simp [isContainer, hk, Kind.isContainer]
    have hcontainer' : project.isContainer := by simp [isContainer, hkind, Kind.isContainer]
    left
    rw [hr.eq_ofNames hcontainer, hproject.eq_ofNames hcontainer', hsegments]
  · exact .inr ((isAncestorOf_iff_path (by simp [hkind]) (by simp [hname]) hproject.plain
      hr.plain).2 hbelow)

/-- Whatever shares its path with a place lies in the project in which its parent lies. -/
theorem Proper.within_of_parent? {other : Resource} (hr : r.Proper) (hpath : other.path = r.path)
    {name : String} (hname : project.segments = [name]) (hkind : project.kind = .project)
    (hp : other.parent? = some p) (h : project.Within p) : project.Within other := by
  have hhead : ∃ more, p.segments = name :: more := by
    rcases h with rfl | habove
    · exact ⟨[], hname⟩
    · obtain ⟨next, below, hsegments⟩ := (isAncestorOf_project hname hkind).1 habove
      exact ⟨next :: below, hsegments⟩
  obtain ⟨more, hmore⟩ := hhead
  have hfilter : other.segments.dropLast.filter (· ≠ "") = name :: more := by
    unfold parent? at hp
    split at hp
    · cases hp
    · obtain rfl := Option.some.inj hp
      cases hmore
    · obtain rfl := Option.some.inj hp
      rwa [segments_ofNames] at hmore
  right
  rw [isAncestorOf_project hname hkind]
  -- Dropping the last segment and the empty ones leaves the name of the project in front.
  match hsegments : other.segments with
  | [] => simp [hsegments] at hfilter
  | [first] => simp [hsegments] at hfilter
  | first :: next :: below =>
    by_cases hfirst : first = ""
    · -- The path would begin with two slashes.
      have htwo := toList_path hsegments
      rw [hpath, hfirst, path, String.toList_append] at htwo
      exfalso
      cases hr' : r.segments with
      | nil => simp [hr', Text.join, Text.joinRuns] at htwo
      | cons s segments =>
        obtain ⟨c, cs, hcs, hc⟩ := Text.joinRuns_eq_cons (by simp [hr'])
          (Text.segments_toList hr.segment)
        rw [Text.join, String.toList_ofList, hcs] at htwo
        simp only [String.toList_ofList, List.cons_append] at htwo
        exact hc (List.cons.inj (List.cons.inj htwo).2).1
    · rw [hsegments, List.dropLast_cons_cons, List.filter_cons_of_pos (by simpa using hfirst)] at hfilter
      obtain ⟨rfl, -⟩ := List.cons.inj hfilter
      exact ⟨next, below, rfl⟩

/-- What lies below a container in a project lies in the project. -/
theorem Proper.within_of_mem_lineage (hr : r.Proper) (hproject : project.Proper)
    (hkind : project.kind = .project) (ha : a ∈ r.lineage) (h : project.Within a) :
    project.Within r := by
  obtain ⟨name, hname⟩ := hproject.segments_project hkind
  have habove : project ∈ r.ancestors → project.Within r := fun hmem =>
    Or.inr ((hr.toWellFormed.mem_ancestors_iff hproject.toWellFormed).1 hmem).2
  rcases h with rfl | hancestor
  · rcases List.mem_cons.1 ha with rfl | hmem
    · exact Or.inl rfl
    · exact habove hmem
  · obtain ⟨next, below, hsegments⟩ := (isAncestorOf_project hname hkind).1 hancestor
    obtain ⟨more, hmore⟩ := hr.exists_split ha
    refine Or.inr ((isAncestorOf_project hname hkind).2 ⟨next, below ++ more, ?_⟩)
    rw [hmore, hsegments, List.cons_append, List.cons_append]

end Resource
end StatusCache
