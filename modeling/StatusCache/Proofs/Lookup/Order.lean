/-
# The order of an answer

What an entry is about has the names that lead to the place of the entry
(`Batch.Loaded.components_finding`). The entries of an answer come in the order of their places, each
container right before what lies in it. So no entry is about a container above what an entry before
it is about; only at the place that was asked for, where several entries may compete, one may come
too late, and then it is no symlink (`Batch.Loaded.parents_first`).
-/

import StatusCache.Proofs.Lookup.Account
import StatusCache.Proofs.Lookup.InFlight

namespace StatusCache

namespace Lookup

variable {env : Env} {batch : Batch} {project r parent : Resource} {binding : Binding}
  {depth : Depth} {e e' : Entry} {w w' : World}

/-- Different names on the ways from the working copy to the entries read differently. -/
def Batch.Legible (batch : Batch) : Prop :=
  ∀ e ∈ batch.entries, ∀ e' ∈ batch.entries, ∀ a a' : Raw,
    .name a ∈ e.path.stepsBelow batch.root → .name a' ∈ e'.path.stepsBelow batch.root →
      a.text = a'.text → a = a'

/-- A batch as a load builds it, for a resource of a project that its host is faithful to. -/
structure Batch.Loaded (env : Env) (project : Resource) (batch : Batch) : Prop where
  plain : ∀ s ∈ batch.resource.segments, '/' ∉ s.toList
  inside : batch.resource.kind ≠ .root
  project? : batch.resource.project? = some project
  faithful : env.host.Faithful project
  binding : ∃ binding, env.host.binding? project = some binding ∧ batch.root = binding.location
  linked : env.host.isLinked batch.resource = false
  requested : env.host.location? batch.resource = some batch.requested
  arranged : batch.entries.Pairwise fun a b => (compare a.path b.path).isLE
  descends : ∀ e ∈ batch.entries, e.path.DescendsByBytes batch.root
  legible : batch.Legible

/-- Entries whose names are texts are legible. -/
theorem Batch.legible_of_descends (h : ∀ e ∈ batch.entries, e.path.Descends batch.root) :
    batch.Legible := by
  have htext : ∀ e ∈ batch.entries, ∀ a : Raw,
      .name a ∈ e.path.stepsBelow batch.root → Raw.ofText a.text = a := by
    intro e he a ha
    obtain ⟨names, hnames, -⟩ := h e he
    rw [Path.stepsBelow, hnames, List.drop_left] at ha
    obtain ⟨s, -, hs⟩ := List.mem_map.1 ha
    exact Raw.exists_ofText_iff.1 ⟨s, Path.Component.name.inj hs⟩
  intro e he e' he' a a' ha ha' hread
  rw [← htext e he a ha, hread, htext e' he' a' ha']

/-- What is asked for, and the entries that come back, arranged. -/
theorem batch_of_askVersioned
    (hrun : (askVersioned env r parent binding depth).run w = (.ok (some batch), w')) :
    batch.resource = r ∧ batch.root = binding.location ∧
      env.host.location? r = some batch.requested ∧
      batch.entries.Pairwise fun a b => (compare a.path b.path).isLE := by
  unfold askVersioned at hrun
  simp only at hrun
  split at hrun
  next place requested hplace hrequested =>
    rw [run_bind] at hrun
    generalize hdepth : backendDepth env _ _ depth = levels at hrun
    obtain ⟨result, hask, hentries⟩ := run_askEntries env place levels w
    rw [hask] at hrun
    cases result with
    | error err => cases hrun
    | ok entries =>
      cases hrun
      refine ⟨rfl, rfl, hrequested, ?_⟩
      rcases hentries entries rfl with ⟨found, -, rfl⟩ | ⟨place, -, rfl⟩ | rfl
      · exact Entry.pairwise_arrange found
      · exact List.pairwise_singleton _ _
      · exact List.Pairwise.nil
  · cases hrun

/-- What comes back if the backend answers with entries. -/
theorem run_askVersioned {place requested : Path} {entries : List Entry} {levels : Backend.Depth}
    (hplace : env.host.location? (if r.isContainer then r else parent) = some place)
    (hrequested : env.host.location? r = some requested)
    (hlevels : backendDepth env (place.components.length ≤ binding.location.components.length)
      r.isContainer depth = levels)
    (hanswer : env.backend.status w.calls place levels { unchanged := true, ignored := true } =
      .ok entries) :
    (askVersioned env r parent binding depth).run w = (.ok (some
      { resource := r
        target := if r.isContainer then r else parent
        entries := Entry.arrange entries
        desiredUrl := Url.append binding.node.url (if r.isContainer then r else parent).projectPath
        root := binding.location
        requested := requested }),
      { w with
        calls := .status place levels { unchanged := true, ignored := true } :: w.calls }) := by
  have hask : (askEntries env place levels).run w = (.ok (Entry.arrange entries), { w with
      calls := .status place levels { unchanged := true, ignored := true } :: w.calls }) := by
    have hstatus : (askStatus env place levels { unchanged := true, ignored := true }).run w =
        (.ok (.ok entries), { w with
          calls := .status place levels { unchanged := true, ignored := true } :: w.calls }) := by
      rw [← hanswer]
      rfl
    rw [askEntries, run_bind_ok hstatus]
    rfl
  unfold askVersioned
  simp only [hplace, hrequested, hlevels]
  exact run_bind_ok hask

/-- What a backend with fixed answers comes back with, if it knows entries in their order. -/
theorem run_askVersioned_fixed {known : Backend.Fixed} {place : Path} {entries : List Entry}
    (hbackend : env.backend = known.backend) (hr : r.isContainer)
    (hplace : env.host.location? r = some place)
    (hlevels : backendDepth env (place.components.length ≤ binding.location.components.length)
      true depth = .immediates)
    (hknown : known.status.lookup place.text = some (.ok entries))
    (harranged : entries.Pairwise fun a b => (compare a.path b.path).isLE) :
    (askVersioned env r parent binding depth).run w = (.ok (some
      { resource := r
        target := r
        entries := entries
        desiredUrl := Url.append binding.node.url r.projectPath
        root := binding.location
        requested := place }),
      { w with
        calls := .status place .immediates { unchanged := true, ignored := true } :: w.calls }) := by
  have hanswer : env.backend.status w.calls place .immediates { unchanged := true, ignored := true } =
      .ok entries := by
    rw [hbackend]
    change known.statusOf place .immediates = _
    rw [Backend.Fixed.statusOf, hknown]
  have htarget : (if r.isContainer then r else parent) = r := if_pos hr
  have hrun := @run_askVersioned env r parent binding depth w place place entries .immediates
    (by rwa [htarget]) hplace (by rwa [hr]) hanswer
  rw [htarget, show Entry.arrange entries = entries from List.mergeSort_of_pairwise harranged] at hrun
  exact hrun

/-- The answer to a request for the checked-out project. -/
theorem run_askVersioned_checkout {nodes : List (Disk.Place × Disk.Node)} {known : Backend.Fixed}
    {entries : List Entry} (hknown : known.status.lookup "wc" = some (.ok entries))
    (harranged : entries.Pairwise fun a b => (compare a.path b.path).isLE) :
    (askVersioned (Checkout.lookupEnv nodes known) Checkout.project .root
      ⟨⟨"wc"⟩, Checkout.trunk⟩ .one).run Checkout.world =
      (.ok (some (Checkout.batch entries)), { Checkout.world with
        calls := [.status ⟨"wc"⟩ .immediates { unchanged := true, ignored := true }] }) :=
  run_askVersioned_fixed rfl rfl rfl rfl
    (by rwa [show Path.text ⟨"wc"⟩ = "wc" by decide +kernel]) harranged

/-- The answer to a request for the linked folder. -/
theorem run_askVersioned_linked {nodes : List (Disk.Place × Disk.Node)} {known : Backend.Fixed}
    {entries : List Entry} (hknown : known.status.lookup "wc/z" = some (.ok entries))
    (harranged : entries.Pairwise fun a b => (compare a.path b.path).isLE) :
    (askVersioned (Checkout.linkedEnv nodes known) Checkout.linked Checkout.project
      ⟨⟨"wc"⟩, Checkout.trunk⟩ .one).run Checkout.world =
      (.ok (some (Checkout.linkedBatch entries)), { Checkout.world with
        calls := [.status ⟨"wc/z"⟩ .immediates { unchanged := true, ignored := true }] }) := by
  have hplace : (Checkout.linkedEnv nodes known).host.location? Checkout.linked =
      some ⟨"wc/z"⟩ := by
    change (Checkout.workspace.link Checkout.linked ⟨"wc/z"⟩).location? Checkout.linked = _
    decide +kernel
  have hurl : Url.append Checkout.trunk.url Checkout.linked.projectPath = "http://h/r/trunk/a" := by
    decide +kernel
  have hrun := @run_askVersioned_fixed (Checkout.linkedEnv nodes known) Checkout.linked
    Checkout.project ⟨⟨"wc"⟩, Checkout.trunk⟩ .one Checkout.world known ⟨"wc/z"⟩ entries rfl rfl hplace
    (by rfl) (by rwa [show Path.text ⟨"wc/z"⟩ = "wc/z" by decide +kernel]) harranged
  rw [hurl] at hrun
  exact hrun

/-- What a load asks for and gets back is such a batch, if the paths of the entries descend from the
root of the working copy by names that can be told apart. -/
theorem loaded_of_askVersioned (hplain : ∀ s ∈ r.segments, '/' ∉ s.toList)
    (hparent : r.parent? = some parent) (hproject : r.project? = some project)
    (hbinding : env.host.binding? project = some binding) (hhost : env.host.Faithful project)
    (hlinked : env.host.isLinked r = false)
    (hrun : (askVersioned env r parent binding depth).run w = (.ok (some batch), w'))
    (hbelow : ∀ e ∈ batch.entries, e.path.DescendsByBytes batch.root) (hlegible : batch.Legible) :
    batch.resource = r ∧ batch.Loaded env project := by
  obtain ⟨rfl, hroot, hrequested, harranged⟩ := batch_of_askVersioned hrun
  have hinside : batch.resource.kind ≠ .root := fun hkind => by
    rw [Resource.parent?_eq_none.2 hkind] at hparent
    cases hparent
  exact ⟨rfl, hplain, hinside, hproject, hhost, ⟨binding, hbinding, hroot⟩, hlinked, hrequested,
    harranged, hbelow, hlegible⟩

/-- Whether an entry is about the requested resource depends on its components alone. -/
theorem requests_congr (h : e'.path.components = e.path.components) (kind : NodeKind) :
    batch.requests e' kind = batch.requests e kind := by
  simp only [Batch.requests, Path.same, h]

namespace Batch.Loaded

/-- What the host or the kind give at a path inside the project. -/
theorem cases_finding (h : batch.Loaded env project) (e : Entry) :
    ∃ r, (r = project.folderAt (batch.relative e) ∨ r = project.fileAt (batch.relative e)) ∧
      ((batch.finding env project e).isSymlink →
        (batch.finding env project e).kind = if r.isContainer then .dir else .file) ∧
      (batch.finding env project e).resource =
        if batch.requests e (batch.finding env project e).kind then batch.resource else r := by
  obtain ⟨r, hr, hkind, hresource⟩ := Lookup.finding_cases env batch project e
  refine ⟨r, ?_, hkind, hresource⟩
  rcases hr with hmember | ⟨-, hr⟩
  · exact h.faithful.member hmember
  · exact hr

/-- A path without a backslash is read as it is. -/
theorem relative_eq {text : String} (htext : e.path.below? batch.root = some text)
    (hplain : '\\' ∉ text.toList) : batch.relative e = text := by
  rw [Batch.relative, htext, Option.getD_some, Text.replace_of_not_mem hplain]

/-- Unless an entry is about the requested resource, what it is about is named by what is left of its
path below the working copy. -/
theorem names_finding (h : batch.Loaded env project) (he : e ∈ batch.entries)
    (hother : ¬batch.requests e (batch.finding env project e).kind) :
    ∃ name text, (batch.finding env project e).resource.names = name :: Resource.pathNames text ∧
      (batch.finding env project e).resource.WellFormed ∧
      (e.path.stepsBelow batch.root).map Path.Component.asText =
        (Resource.pathNames text).filterMap Path.Component.ofName? ∧
      (Resource.pathNames text).getLast? ≠ some "." := by
  obtain ⟨r, hr, -, hresource⟩ := h.cases_finding e
  rw [if_neg hother] at hresource
  rw [hresource]
  obtain ⟨name, -, hname, -, rfl⟩ := Resource.exists_names_of_project? h.plain h.project?
  obtain ⟨text, htext, hplain, hsteps, -, hlast⟩ := (h.descends e he).exists_below?
  rw [relative_eq htext hplain] at hr
  have hproject : (⟨[name], .project⟩ : Resource).WellFormed := ⟨by simpa using hname.1, rfl⟩
  have hone : (⟨[name], .project⟩ : Resource).names = [name] := hproject.names_eq
  rcases hr with rfl | rfl
  · exact ⟨name, text, by rw [Resource.names_folderAt, hone]; rfl, hproject.folderAt text,
      hsteps, hlast⟩
  · exact ⟨name, text, by rw [Resource.names_fileAt, hone]; rfl, Resource.wellFormed_fileAt _ text,
      hsteps, hlast⟩

/-- **The names of what an entry is about are what the steps to its place read as.** -/
theorem steps_finding (h : batch.Loaded env project) (he : e ∈ batch.entries) :
    (e.path.stepsBelow batch.root).map Path.Component.asText =
      ((batch.finding env project e).resource.names.drop 1).filterMap Path.Component.ofName? := by
  by_cases hrequests : batch.requests e (batch.finding env project e).kind
  · obtain ⟨_, -, -, hresource⟩ := h.cases_finding e
    obtain ⟨binding, hbinding, hroot⟩ := h.binding
    have hplace := h.faithful.location hbinding h.plain h.project? h.linked h.requested
    have hsame : e.path.components = batch.requested.components := by
      rw [Batch.requests, Bool.and_eq_true] at hrequests
      simpa [Path.same] using hrequests.1
    rw [hresource, if_pos hrequests, Path.stepsBelow, hsame, hplace, hroot, List.drop_left,
      List.map_filterMap]
    exact List.filterMap_congr fun s _ => Path.ofName?_asText s
  · obtain ⟨name, text, hnames, -, hsteps, -⟩ := h.names_finding he hrequests
    rw [hnames, List.drop_one, List.tail_cons, hsteps]

/-- Where the steps to one entry read as the first ones to another, its place is above that. -/
theorem isPrefix_components (h : batch.Loaded env project) (he : e ∈ batch.entries)
    (he' : e' ∈ batch.entries)
    (hread : (e'.path.stepsBelow batch.root).map Path.Component.asText <+:
      (e.path.stepsBelow batch.root).map Path.Component.asText) :
    e'.path.components <+: e.path.components := by
  have hname : ∀ {d : Entry}, d ∈ batch.entries → ∀ c ∈ d.path.stepsBelow batch.root,
      ∃ a : Raw, c = .name a := by
    intro d hd c hc
    obtain ⟨names, hnames, -⟩ := h.descends d hd
    rw [Path.stepsBelow, hnames, List.drop_left] at hc
    obtain ⟨a, -, rfl⟩ := List.mem_map.1 hc
    exact ⟨a, rfl⟩
  rw [Path.components_eq_append (h.descends e he).startsWith,
    Path.components_eq_append (h.descends e' he').startsWith]
  refine (List.prefix_append_right_inj _).2 (Path.isPrefix_of_asText (fun c hc c' hc' heq => ?_) hread)
  obtain ⟨a, rfl⟩ := hname he' c hc
  obtain ⟨a', rfl⟩ := hname he c' hc'
  have htext : a.text = a'.text := Raw.ofText_inj.1 (Path.Component.name.inj heq)
  rw [h.legible e' he' e he a a' hc hc' htext]

/-- What an entry is about has a parent. -/
theorem isSome_parent?_finding (h : batch.Loaded env project) (e : Entry) :
    (batch.finding env project e).resource.parent?.isSome := by
  refine Lookup.isSome_parent?_finding h.plain h.project? h.inside (fun {relative m} hm => ?_) e
  obtain ⟨name, -, hname, -, rfl⟩ := Resource.exists_names_of_project? h.plain h.project?
  rcases h.faithful.member hm with rfl | rfl
  · exact Resource.kind_folderAt (by simp) relative
  · exact Resource.kind_fileAt (by simp [Resource.names, hname.1]) relative

/-- If a later entry is about a container above what an earlier one is about, then both are at one
place. -/
theorem components_eq_of_mem_ancestors (h : batch.Loaded env project)
    (he : e ∈ batch.entries) (he' : e' ∈ batch.entries)
    (hle : (compare e.path e'.path).isLE)
    (habove : (batch.finding env project e').resource ∈
      (batch.finding env project e).resource.ancestors) :
    e'.path.components = e.path.components := by
  refine Path.eq_of_isPrefix_of_isLE (h.isPrefix_components he he' ?_) hle
  rw [h.steps_finding he, h.steps_finding he']
  exact ((Resource.isPrefix_names_of_mem_ancestors habove).drop 1).filterMap _

/-- If a later entry is about a container above what an earlier one is about, then the latter is a
place whose last name does not count. -/
theorem last_of_mem_ancestors (h : batch.Loaded env project)
    (he : e ∈ batch.entries) (he' : e' ∈ batch.entries)
    (hle : (compare e.path e'.path).isLE)
    (habove : (batch.finding env project e').resource ∈
      (batch.finding env project e).resource.ancestors)
    (hwf : (batch.finding env project e).resource.WellFormed) :
    ((batch.finding env project e).resource.names.drop 1).getLast? = some "." := by
  have hsteps : ((batch.finding env project e').resource.names.drop 1).filterMap
      Path.Component.ofName? =
        ((batch.finding env project e).resource.names.drop 1).filterMap Path.Component.ofName? := by
    rw [← h.steps_finding he, ← h.steps_finding he', Path.stepsBelow, Path.stepsBelow,
      h.components_eq_of_mem_ancestors he he' hle habove]
  by_contra hlast
  have hparent := h.isSome_parent?_finding e'
  generalize (batch.finding env project e').resource = a at *
  generalize (batch.finding env project e).resource = k at *
  have hawf := hwf.of_mem_ancestors habove
  have hshort := hwf.length_names_lt habove
  obtain ⟨extra, hextra⟩ := Resource.isPrefix_names_of_mem_ancestors habove
  obtain ⟨first, below, hbelow⟩ : ∃ first below, a.names = first :: below := by
    refine List.exists_cons_of_ne_nil fun hnil => ?_
    rw [hawf.names_eq, ← hawf.kind_eq_root, ← Resource.parent?_eq_none] at hnil
    simp [hnil] at hparent
  have hne : ∀ s ∈ k.names.drop 1, s ≠ "" := fun s hs => by
    rw [hwf.names_eq] at hs
    exact hwf.names s (List.mem_of_mem_drop hs)
  have hrest : k.names.drop 1 = below ++ extra := by rw [← hextra, hbelow]; rfl
  rw [hrest] at hsteps hne hlast
  rw [hbelow, List.drop_one, List.tail_cons] at hsteps
  obtain rfl := Path.eq_nil_of_filterMap_eq hne rfl hsteps hlast
  rw [← hextra, List.append_nil] at hshort
  exact lt_irrefl _ hshort

/-- Where a later entry is about a container above what an earlier one is about, the earlier one is
about the requested resource: any other has a name that leads on from every container above. -/
theorem requests_of_mem_ancestors (h : batch.Loaded env project)
    (he : e ∈ batch.entries) (he' : e' ∈ batch.entries)
    (hle : (compare e.path e'.path).isLE)
    (habove : (batch.finding env project e').resource ∈
      (batch.finding env project e).resource.ancestors) :
    batch.requests e (batch.finding env project e).kind := by
  by_contra hother
  obtain ⟨name, text, hnames, hwf, -, hlast⟩ := h.names_finding he hother
  have hdot := h.last_of_mem_ancestors he he' hle habove hwf
  rw [hnames, List.drop_one, List.tail_cons] at hdot
  exact hlast hdot

/-- **The entries of a load come parents first**: none is about a container above what a directory
before it is about, unless the two share the requested place and it is no symlink. -/
theorem parents_first (h : batch.Loaded env project) :
    batch.entries.Pairwise fun e e' => (batch.finding env project e).kind = .dir →
      (batch.finding env project e').resource ∈
        (batch.finding env project e).resource.ancestors →
      (batch.finding env project e').isSymlink = false := by
  refine h.arranged.imp_of_mem fun {e e'} hmem hmem' hle hkind habove => ?_
  have hplace := h.components_eq_of_mem_ancestors hmem hmem' hle habove
  have hrequests := h.requests_of_mem_ancestors hmem hmem' hle habove
  by_contra hsymlink
  obtain ⟨_, -, -, hresource⟩ := h.cases_finding e
  obtain ⟨r', -, hkind', hresource'⟩ := h.cases_finding e'
  rw [if_pos hrequests] at hresource
  have hkind' := hkind' (by simpa using hsymlink)
  split at hresource'
  · rw [hresource, hresource'] at habove
    exact Resource.not_mem_ancestors_self _ habove
  next hother =>
    have hcontainer := Resource.isContainer_of_mem_ancestors habove
    rw [hresource'] at hcontainer
    rw [if_pos hcontainer, ← hkind] at hkind'
    rw [hkind', requests_congr hplace] at hother
    exact hother hrequests

end Batch.Loaded
end Lookup
end StatusCache
