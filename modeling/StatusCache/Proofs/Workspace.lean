/-
# From locations to resources and back

A path at or below the location of a project belongs to the project with the deepest location around
it (`Workspace.Deepest`), and there to the resource that is named by what is left of the path. The
way back puts the names of the resource behind the location, and leads to the same steps
(`components_placeBelow`). It is another way where the names are not those of the path: a name that
is not UTF-8 is read leniently, a backslash in a path counts as a slash, and a project whose name is
not a segment is looked up under another name from what lies in it. There are no further exceptions
(`location_of_resourceAt`).
-/

import Mathlib.Data.List.MinMax
import StatusCache.Proofs.Path
import StatusCache.Proofs.Table
import StatusCache.Workspace

namespace StatusCache

namespace Workspace

variable {w : Workspace} {path : Path} {name : String} {p : Project} {names : List String}

/-! ### The way back -/

/-- **Names behind a location are the next steps.** Only behind an empty location a leading `.` is a
step as well. -/
theorem components_placeBelow (location : Path) (h : ∀ s ∈ names, Text.Segment '/' s) :
    (placeBelow location (Text.join '/' names)).components = location.components ++
      ((if location.raw = "" ∧ names.head? = some "." then [.here] else []) ++
        names.filterMap Path.Component.ofName?) := by
  by_cases hnil : names = []
  · subst hnil
    simp [placeBelow, Text.join, Text.joinRuns]
  · rw [placeBelow, if_neg fun hempty => hnil ((Text.join_eq_empty h).1 hempty)]
    by_cases hraw : location.raw = ""
    · have hlocation : location = ⟨""⟩ := congrArg Path.mk hraw
      subst hlocation
      have hjoin : Path.join ⟨""⟩ (Text.join '/' names) = ⟨Text.join '/' names⟩ := by
        rw [Path.join, if_neg (Raw.isAbsolute_ofText.not.2 (Text.trimmed_join h).head)]
        rfl
      rw [hjoin, Path.components_join_names h]
      simp [show Path.components ⟨""⟩ = [] from rfl]
    · rw [Path.components_join_text hraw h]
      simp [hraw]

/-- The resource that a path inside a project names. -/
def inside (name relative : String) (isFolder : Bool) : Resource :=
  if relative = "" then Resource.project name
  else if isFolder then (Resource.project name).folderAt relative
  else (Resource.project name).fileAt relative

/-- A resource inside a project has its names and those of the relative path. -/
theorem names_inside (name relative : String) (isFolder : Bool) :
    (inside name relative isFolder).names =
      (Resource.project name).names ++ Resource.pathNames relative := by
  unfold inside
  split
  next hempty =>
    subst hempty
    exact (List.append_nil _).symm
  · split
    · exact Resource.names_folderAt _ relative
    · exact Resource.names_fileAt _ relative

/-- The names of a resource inside a project are segments. -/
theorem segment_of_mem_names_inside {relative : String} {isFolder : Bool} :
    ∀ s ∈ (inside name relative isFolder).names, Text.Segment '/' s := by
  intro s hs
  rw [names_inside] at hs
  rcases List.mem_append.1 hs with hs | hs
  · obtain ⟨hs, hne⟩ := List.mem_filter.1 hs
    exact ⟨by simpa using hne, Text.not_mem_of_mem_split hs⟩
  · exact Resource.segment_of_mem_pathNames hs

/-- Without links, a resource is below the location of the project that its first name tells. -/
theorem location?_of_names {r : Resource} {below : List String}
    (hlinks : ∀ r, w.links.get? r = none) (hname : Text.Segment '/' name)
    (hnames : r.names = name :: below) :
    w.location? r =
      (w.projects.get? name).map fun p => placeBelow p.location (Text.join '/' below) := by
  have hunlinked : w.linkAbove? r = none := by simp [linkAbove?, hlinks]
  rw [location?, hunlinked, Resource.project?_of_names hname hnames, Resource.projectPath, hnames]
  change ((w.projects.get? name).bind fun p => some _) = _
  cases w.projects.get? name <;> rfl

/-! ### The deepest project -/

/-- The project with the deepest location around a path. -/
structure Deepest (w : Workspace) (path : Path) (name : String) (p : Project) : Prop where
  registered : w.projects.get? name = some p
  around : path.startsWith p.location
  deepest : ∀ name' p', w.projects.get? name' = some p' → path.startsWith p'.location →
    p'.location.components.length ≤ p.location.components.length

/-- A nonempty list has a member with the greatest value. -/
theorem exists_mem_forall_le {α : Type} {xs : List α} (f : α → Nat) (hne : xs ≠ []) :
    ∃ a ∈ xs, ∀ b ∈ xs, f b ≤ f a := by
  cases hmax : xs.argmax f with
  | none => exact absurd (List.argmax_eq_none.1 hmax) hne
  | some a => exact ⟨a, List.argmax_mem hmax, fun b hb => List.le_of_mem_argmax hb hmax⟩

/-- **A path with projects around it belongs to the deepest of them**, and there to what is left of
it. -/
theorem exists_deepest (hkeys : w.projects.Distinct) (hp : w.projects.get? name = some p)
    (haround : path.startsWith p.location) :
    ∃ name p, w.Deepest path name p ∧ ∀ isFolder, w.resourceAt? path isFolder =
      (path.below? p.location).map fun text =>
        inside name (Text.replace '\\' '/' text) isFolder := by
  let depth (e : String × Project) := e.2.location.components.length
  let around := w.projects.entries.filter fun e => path.startsWith e.2.location
  have hmem : ∀ name p, (name, p) ∈ around ↔
      w.projects.get? name = some p ∧ path.startsWith p.location := fun name p => by
    rw [List.mem_filter, hkeys.mem_entries_iff]
  have hsome : (around.find? fun e => around.all fun e' => depth e' ≤ depth e).isSome := by
    obtain ⟨e, he, hmost⟩ :=
      exists_mem_forall_le depth (List.ne_nil_of_mem ((hmem name p).2 ⟨hp, haround⟩))
    exact List.find?_isSome.2 ⟨e, he, List.all_eq_true.2 fun e' he' =>
      decide_eq_true (hmost e' he')⟩
  obtain ⟨⟨name, p⟩, hfind⟩ := Option.isSome_iff_exists.1 hsome
  have hfound := (hmem name p).1 (List.mem_of_find?_eq_some hfind)
  refine ⟨name, p, ⟨hfound.1, hfound.2, fun name' p' hp' haround' => ?_⟩, fun isFolder => ?_⟩
  · have hall := List.find?_some hfind
    exact of_decide_eq_true
      (List.all_eq_true.1 hall (name', p') ((hmem name' p').2 ⟨hp', haround'⟩))
  · change ((around.find? fun e => around.all fun e' => depth e' ≤ depth e).bind _) = _
    rw [hfind]
    change ((path.below? p.location).bind fun text =>
      some (inside name (Text.replace '\\' '/' text) isFolder)) = _
    cases path.below? p.location <;> rfl

/-! ### There and back -/

/-- Workspaces as the operations make them. -/
inductive Assembled : Workspace → Prop
  | make {metadata : String} {ignored outputs : List String} {w : Workspace}
      (h : make metadata ignored outputs = .ok w) : Assembled w
  | addProject {w : Workspace} (h : Assembled w) (name : String) (location : Path)
      (node : Option RepoNode) : Assembled (w.addProject name location node)
  | removeProject {w : Workspace} (h : Assembled w) (project : Resource) :
      Assembled (w.removeProject project)
  | setOpen {w : Workspace} (h : Assembled w) (project : Resource) (isOpen : Bool) :
      Assembled (w.setOpen project isOpen)
  | link {w : Workspace} (h : Assembled w) (r : Resource) (target : Path) :
      Assembled (w.link r target)

/-- Every project is registered once. -/
theorem Assembled.distinct (h : w.Assembled) : w.projects.Distinct := by
  induction h with
  | @make metadata ignored outputs w h =>
    simp only [Workspace.make, bind, Except.bind, pure, Except.pure] at h
    split at h
    · cases h
    · obtain rfl := Except.ok.inj h
      exact Table.distinct_empty
  | addProject _ name location node ih => exact ih.insert name _
  | removeProject _ project ih => exact ih.erase project.name
  | setOpen _ project isOpen ih =>
    unfold Workspace.setOpen
    split
    · exact ih.insert project.name _
    · exact ih
  | link _ r target ih => exact ih

/-- No two projects have one location. -/
def Apart (w : Workspace) : Prop := ∀ name name' p p', w.projects.get? name = some p →
  w.projects.get? name' = some p' → p.location.same p'.location → name = name'

/-- There is only one deepest project around a path. -/
theorem Deepest.unique {name' : String} {p' : Project} (hapart : w.Apart)
    (h : w.Deepest path name p) (h' : w.Deepest path name' p') : name' = name := by
  refine hapart _ _ p' p h'.registered h.registered ?_
  have hlength := le_antisymm (h.deepest _ _ h'.registered h'.around)
    (h'.deepest _ _ h.registered h.around)
  have hbegins := List.prefix_of_prefix_length_le (Path.startsWith_iff.1 h'.around)
    (Path.startsWith_iff.1 h.around) hlength.le
  exact decide_eq_true (hbegins.eq_of_length hlength)

section

variable {relative : String} {isFolder : Bool}

/-- In a project that is named by a segment, the first name is that. -/
theorem names_inside_of_segment (hname : Text.Segment '/' name) :
    (inside name relative isFolder).names = name :: Resource.pathNames relative := by
  rw [names_inside, Resource.project_eq hname, Resource.names,
    List.filter_cons_of_pos (by simpa using hname.1)]
  rfl

/-- What is inside a project that is named by a segment belongs to it. -/
theorem project?_inside (hname : Text.Segment '/' name) :
    (inside name relative isFolder).project? = some (Resource.project name) := by
  rw [Resource.project?_of_names hname (names_inside_of_segment hname), Resource.project_eq hname]

/-- **What is reached by names without a backslash is found again**, in a project named by a
segment. -/
theorem location?_inside (hlinks : ∀ r, w.links.get? r = none) (hp : w.projects.get? name = some p)
    (hname : Text.Segment '/' name)
    (hsteps : path.components = p.location.components ++
      (Resource.pathNames relative).filterMap Path.Component.ofName?)
    (hhead : (Resource.pathNames relative).head? ≠ some ".") :
    ∃ place, w.location? (inside name relative isFolder) = some place ∧ place.same path := by
  refine ⟨placeBelow p.location (Text.join '/' (Resource.pathNames relative)), ?_,
    decide_eq_true ?_⟩
  · rw [location?_of_names hlinks hname (names_inside_of_segment hname), hp, Option.map_some]
  · rw [components_placeBelow _ fun s hs => Resource.segment_of_mem_pathNames hs,
      if_neg fun h => hhead h.2, List.nil_append, hsteps]

/-- What stands behind a location tells the names that lead to the same path from a location further
down. So these are texts, and none of them holds a backslash if none stands there. -/
theorem descends_of_placeBelow {location : Path} {below : List String} {names : List Raw}
    (hbelow : ∀ s ∈ below, Text.Segment '/' s) (hplain : ∀ s ∈ below, '\\' ∉ s.toList)
    (habove : location.components <+: p.location.components)
    (hsame : (placeBelow location (Text.join '/' below)).same path)
    (hpath : path.components = p.location.components ++ names.map .name) :
    path.Descends p.location := by
  refine Path.descends_of_names hpath fun name hname => ?_
  obtain ⟨between, hbetween⟩ := habove
  have hsteps := (of_decide_eq_true hsame).symm
  rw [hpath, components_placeBelow location hbelow, ← hbetween, List.append_assoc,
    List.append_cancel_left_eq] at hsteps
  have hmem : Path.Component.name name ∈ (if location.raw = "" ∧ below.head? = some "."
      then [Path.Component.here] else []) ++ below.filterMap Path.Component.ofName? :=
    hsteps ▸ List.mem_append_right _ (List.mem_map_of_mem hname)
  rcases List.mem_append.1 hmem with hhere | hstep
  · split at hhere <;> simp at hhere
  · obtain ⟨run, hrun, hstep⟩ := List.mem_filterMap.1 hstep
    exact ⟨run, hplain run hrun, Path.eq_of_ofRun? hstep⟩

/-- What lies in the project that its first name tells is named by this and its path in there. -/
theorem exists_names_inside
    (h : (inside name relative isFolder).project? = some (Resource.project name)) :
    ∃ first, Text.Segment '/' first ∧
      (inside name relative isFolder).names = first :: Resource.pathNames relative := by
  have hsplit := names_inside name relative isFolder
  have hsegments : ∀ s ∈ (inside name relative isFolder).names, Text.Segment '/' s :=
    segment_of_mem_names_inside
  cases hnames : (inside name relative isFolder).names with
  | nil => simp [Resource.project?, hnames] at h
  | cons first below =>
    rw [hnames] at hsegments
    have hfirst := hsegments first List.mem_cons_self
    rw [Resource.project?_of_names hfirst hnames, Option.some.injEq] at h
    rw [hnames, ← h, Resource.names, List.filter_cons_of_pos (by simpa using hfirst.1)] at hsplit
    exact ⟨first, hfirst, congrArg (first :: ·) (List.cons.inj hsplit).2⟩

/-- **Only what is reached by names without a backslash is found again**, and only in a project that
is named by a segment. -/
theorem of_location?_inside {text : String} {place : Path} {names : List Raw}
    (hlinks : ∀ r, w.links.get? r = none) (hapart : w.Apart) (hp : w.Deepest path name p)
    (hpath : path.components = p.location.components ++ names.map .name)
    (htext : path.below? p.location = some text) (hrelative : relative = Text.replace '\\' '/' text)
    (hproject : (inside name relative isFolder).project? = some (Resource.project name))
    (hplace : w.location? (inside name relative isFolder) = some place) (hsame : place.same path) :
    Text.Segment '/' name ∧ path.Descends p.location := by
  obtain ⟨first, hfirst, hnames⟩ := exists_names_inside hproject
  rw [location?_of_names hlinks hfirst hnames] at hplace
  obtain ⟨p', hp', rfl⟩ := Option.map_eq_some_iff.1 hplace
  have hsegments : ∀ s ∈ Resource.pathNames relative, Text.Segment '/' s := fun s hs =>
    Resource.segment_of_mem_pathNames hs
  have hplain : ∀ s ∈ Resource.pathNames relative, '\\' ∉ s.toList := fun s hs =>
    Text.not_mem_of_mem_split_of_not_mem (hrelative ▸ Text.not_mem_replace (by decide) text)
      (List.mem_filter.1 hs).1
  have hsteps := components_placeBelow p'.location hsegments
  rw [of_decide_eq_true hsame] at hsteps
  -- The project that is looked up is around the path, so that it is no deeper than the other one.
  have haround : path.startsWith p'.location :=
    Path.startsWith_iff.2 (hsteps ▸ List.prefix_append _ _)
  have habove : p'.location.components <+: p.location.components :=
    List.prefix_of_prefix_length_le (Path.startsWith_iff.1 haround)
      (Path.startsWith_iff.1 hp.around) (hp.deepest _ _ hp' haround)
  have hdescends := descends_of_placeBelow hsegments hplain habove hsame hpath
  -- Now nothing was replaced, and the steps behind the two locations are the same.
  obtain ⟨text', htext', hnone, hsteps', hhead, -⟩ := hdescends.exists_below?
  obtain rfl : text' = text := Option.some.inj (htext'.symm.trans htext)
  rw [Text.replace_of_not_mem hnone] at hrelative
  subst hrelative
  rw [if_neg fun h => hhead h.2, List.nil_append, hsteps', List.append_cancel_right_eq] at hsteps
  obtain rfl := hapart _ _ _ _ hp' hp.registered (decide_eq_true hsteps.symm)
  exact ⟨hfirst, hdescends⟩

end

/-- **Locations and resources.** Let no two projects have one location, and nothing be linked. A
path that leads by names from the location of some project belongs to a resource. If the deepest
project around the path, of which there is one, is named by a segment, the resource lies in it. And
it is a resource of this project that has the path as its location, if and only if the project is
named by a segment and the names on the way from there are UTF-8 and hold no backslash. -/
theorem location_of_resourceAt (hw : w.Assembled) (hlinks : ∀ r, w.links.get? r = none)
    (hapart : w.Apart)
    (hpath : ∃ name p names, w.projects.get? name = some p ∧
      path.components = p.location.components ++ List.map .name names) (isFolder : Bool) :
    ∃ name p, w.Deepest path name p ∧ (∀ name' p', w.Deepest path name' p' → name' = name) ∧
      ∃ r, w.resourceAt? path isFolder = some r ∧
        (Text.Segment '/' name → r.project? = some (Resource.project name)) ∧
        ((r.project? = some (Resource.project name) ∧
            ∃ place, w.location? r = some place ∧ place.same path) ↔
          Text.Segment '/' name ∧ path.Descends p.location) := by
  obtain ⟨outer, o, way, ho, hway⟩ := hpath
  have haround := Path.startsWith_iff.2 (hway ▸ List.prefix_append _ _)
  obtain ⟨name, p, hdeepest, hresource⟩ := exists_deepest hw.distinct ho haround
  obtain ⟨names, hnames⟩ := Path.exists_names_of_startsWith hway hdeepest.around
    (hdeepest.deepest _ _ ho haround)
  obtain ⟨text, htext⟩ := Path.exists_below? hdeepest.around
  refine ⟨name, p, hdeepest, fun _ _ => hdeepest.unique hapart,
    inside name (Text.replace '\\' '/' text) isFolder, ?_, project?_inside, ?_, ?_⟩
  · rw [hresource, htext, Option.map_some]
  · rintro ⟨hproject, place, hplace, hsame⟩
    exact of_location?_inside hlinks hapart hdeepest hnames htext rfl hproject hplace hsame
  · rintro ⟨hname, hdescends⟩
    obtain ⟨text', htext', hnone, hsteps, hhead, -⟩ := hdescends.exists_below?
    obtain rfl : text' = text := Option.some.inj (htext'.symm.trans htext)
    rw [Text.replace_of_not_mem hnone]
    exact ⟨project?_inside hname, location?_inside hlinks hdeepest.registered hname hsteps hhead⟩

/-- In a project that lies in another one a file is found again, but not one with a backslash in its
name, nor one with a name that is not UTF-8. -/
theorem location_of_resourceAt_nested :
    let w := (({ metadata := ".svn" } : Workspace).addProject "p" ⟨"wc"⟩ none).addProject "q"
      ⟨"wc/lib"⟩ none
    let back (path : Path) := ∃ r, w.resourceAt? path false = some r ∧
      r.project? = some (Resource.project "q") ∧
        ∃ place, w.location? r = some place ∧ place.same path
    w.Assembled ∧ (∀ r, w.links.get? r = none) ∧ w.Apart ∧
      back ⟨"wc/lib//x/./y"⟩ ∧ ¬back ⟨"wc/lib/a\\b"⟩ ∧ ¬back ⟨"wc/lib/" ++ ⟨[0x80]⟩⟩ := by
  intro w back
  have hw : w.Assembled := .addProject (.addProject (.make (rfl : make ".svn" [] [] = _)) ..) ..
  have hprojects (name : String) (p : Project) (h : w.projects.get? name = some p) :
      (name = "p" ∧ p.location = ⟨"wc"⟩) ∨ (name = "q" ∧ p.location = ⟨"wc/lib"⟩) := by
    simp only [w, addProject, Table.get?_insert] at h
    split at h
    next hq => exact .inr ⟨hq.symm, congrArg Project.location (Option.some.inj h).symm⟩
    · split at h
      next hp => exact .inl ⟨hp.symm, congrArg Project.location (Option.some.inj h).symm⟩
      · cases h
  have hapart : w.Apart := by
    intro name name' p p' hp hp' hsame
    rcases hprojects name p hp with ⟨rfl, h⟩ | ⟨rfl, h⟩ <;>
      rcases hprojects name' p' hp' with ⟨rfl, h'⟩ | ⟨rfl, h'⟩
    · rfl
    · rw [h, h'] at hsame
      exact absurd hsame (by decide +kernel)
    · rw [h, h'] at hsame
      exact absurd hsame (by decide +kernel)
    · rfl
  have hback (path : Path) (names : List Raw)
      (hpath : path.components = (⟨"wc/lib"⟩ : Path).components ++ names.map .name) :
      back path ↔ path.Descends ⟨"wc/lib"⟩ := by
    obtain ⟨name, p, hp, -, r, hr, -, hiff⟩ := location_of_resourceAt hw (fun _ => rfl) hapart
      ⟨"q", _, names, rfl, hpath⟩ false
    have hq : name = "q" ∧ p.location = ⟨"wc/lib"⟩ := by
      refine (hprojects name p hp.registered).resolve_left fun hout => ?_
      have hlength := hp.deepest "q" _ rfl (Path.startsWith_iff.2 (hpath ▸ List.prefix_append _ _))
      rw [hout.2] at hlength
      exact absurd hlength (by decide +kernel)
    obtain ⟨rfl, hlocation⟩ := hq
    rw [hlocation] at hiff
    have hname : Text.Segment '/' "q" := ⟨by decide, by decide⟩
    constructor
    · rintro ⟨r', hr', hfound⟩
      obtain rfl := Option.some.inj (hr'.symm.trans hr)
      exact (hiff.1 hfound).2
    · exact fun hdescends => ⟨r, hr, hiff.2 ⟨hname, hdescends⟩⟩
  refine ⟨hw, fun _ => rfl, hapart, ?_, ?_, ?_⟩
  · exact (hback _ [("x" : Raw), ("y" : Raw)] (by decide +kernel)).2
      ⟨["x", "y"], by decide +kernel, by decide +kernel⟩
  · rw [hback _ [("a\\b" : Raw)] (by decide +kernel)]
    intro hdescends
    obtain ⟨text, htext, hnone, -⟩ := hdescends.exists_below?
    have hleft : (⟨"wc/lib/a\\b"⟩ : Path).below? ⟨"wc/lib"⟩ = some "a\\b" := by decide +kernel
    obtain rfl := Option.some.inj (htext.symm.trans hleft)
    exact hnone (by decide)
  · have hnames : (⟨"wc/lib/" ++ ⟨[0x80]⟩⟩ : Path).components =
        (⟨"wc/lib"⟩ : Path).components ++ [.name ⟨[0x80]⟩] := by decide +kernel
    rw [hback _ [⟨[0x80]⟩] hnames]
    rintro ⟨texts, htexts, -⟩
    rw [hnames, List.append_cancel_left_eq] at htexts
    obtain ⟨text, -, htext⟩ := List.mem_map.1 (htexts ▸ List.mem_singleton_self _)
    exact absurd (Raw.exists_ofText_iff.1 ⟨text, Path.Component.name.inj htext⟩) (by decide +kernel)

end Workspace

end StatusCache
