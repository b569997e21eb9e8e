/-
# Forgetting a project

A project is taken out of four tables, by tests of three kinds: out of the records and the buckets
by the segments of resources, out of the index by the text of paths, and out of the monitor and the
bucket of the root by the project alone. For everything that can be named these tests agree
(`within_project_iff`): a resource lies in a project if its path is that of the project, a slash,
and something more. So nothing happens to a project whose name begins with the same letters.

`forgetProject_exact` says what goes and what stays, in every session and for every name.
-/

import StatusCache.Proofs.Storage.Operation

namespace StatusCache

open Resource (Within PathWithin Named)

namespace Resource

variable {r p : Resource} {name : String}

/-- A project has a segment. -/
theorem segments_project_ne_nil (name : String) : (project name).segments ≠ [] := by
  simpa [project, Text.split] using Text.splitRuns_ne_nil '/' _

/-- A project is above what goes on from its segments. -/
theorem isAncestorOf_project_iff (name : String) (r : Resource) :
    (project name).isAncestorOf r ↔ (project name).segments <+: r.segments ∧
      (project name).segments.length < r.segments.length :=
  isAncestorOf_iff_segments (by simp [project])

/-- What can be named lies in a project if it is the project, or its path lies below. -/
theorem within_project_iff (h : r.Named) : (project name).Within r ↔
    r = project name ∨ ((project name).path ++ "/").toList <+: r.path.toList :=
  or_congr_right (isAncestorOf_iff_path (by simp [project]) (segments_project_ne_nil name)
    (Named.project name).plain h.plain)

/-- The root is not within a project. -/
theorem not_within_project_root (name : String) : ¬(project name).Within root := by
  rintro (heq | habove)
  · have hkind := congrArg kind heq
    simp [project, root] at hkind
  · simp [isAncestorOf_project_iff, root] at habove

/-- The parent of what does not lie in a project does not lie there either. -/
theorem not_within_project_parent (h : r.Named) (hr : ¬(project name).Within r)
    (hp : r.parent? = some p) : ¬(project name).Within p := by
  intro hwithin
  cases h with
  | root => cases hp
  | project other =>
    obtain rfl := Option.some.inj hp
    exact not_within_project_root name hwithin
  | path path kind =>
    have hwell := (Built.path path kind).wellFormed
    have hne : (ofPath path kind).segments ≠ [] := fun hnil => by
      rw [parent?_eq_none.2 (hwell.kind_eq_root.2 hnil)] at hp
      cases hp
    have hsegments : p.segments = (ofPath path kind).segments.dropLast := by
      rw [hwell.parent?_eq hne] at hp
      rw [← Option.some.inj hp, segments_ofNames]
    have hbegins : p.segments <+: (ofPath path kind).segments :=
      hsegments ▸ List.dropLast_prefix _
    have hshorter : p.segments.length < (ofPath path kind).segments.length := by
      have := List.length_pos_iff.2 hne
      rw [hsegments, List.length_dropLast]
      omega
    refine hr (.inr ((isAncestorOf_project_iff name _).2 ?_))
    rcases hwithin with rfl | hwithin
    · exact ⟨hbegins, hshorter⟩
    · obtain ⟨hfirst, hlength⟩ := (isAncestorOf_project_iff name p).1 hwithin
      exact ⟨hfirst.trans hbegins, hlength.trans hshorter⟩

/-- What has a path outside of a project does not lie in it. -/
theorem not_within_of_not_pathWithin (h : r.Named) (hr : ¬(project name).PathWithin r.path) :
    ¬(project name).Within r := by
  rw [within_project_iff h]
  rintro (rfl | hbelow)
  · exact hr (.inl rfl)
  · exact hr (.inr hbelow)

end Resource

namespace Storage

variable {name : String} {st : State} {r : Resource}

/-- **Forgetting a project takes all of it and nothing else.** The project, and everything that can
be named with a path below it, has no record and no bucket afterwards. The bucket of the root does
not list the project, the index has no path in it, and the monitor does not watch it. Everything
that can be named with another path has the record and the bucket it had, and is found as before;
only the bucket of the root lacks the project. The index keeps all other paths, the monitor all
other projects, and nothing else of the session changes. -/
theorem forgetProject_exact (name : String) (s : Session) :
    let p := Resource.project name
    let before := s.storage.state
    let after := ((forgetProject p).run s).2.storage.state
    (forgetProject p).run s = (.ok (), { s with storage := { s.storage with state := after } }) ∧
    (∀ r : Resource, r.Named → r = p ∨ (p.path ++ "/").toList <+: r.path.toList →
      after.cache.records.get? r = none ∧ after.cache.get? r = none ∧
        after.cache.buckets.get? r = none) ∧
    p ∉ after.cache.bucket .root ∧
    (∀ path, PathWithin p path → after.switched.urls.get? path = none) ∧
    ¬after.monitor.watches p ∧
    (∀ r : Resource, r.Named → ¬PathWithin p r.path →
      after.cache.records.get? r = before.cache.records.get? r ∧
        after.cache.get? r = before.cache.get? r ∧
        (r ≠ .root → after.cache.buckets.get? r = before.cache.buckets.get? r)) ∧
    after.cache.buckets.get? .root =
      (before.cache.buckets.get? .root).map (·.filter (· ≠ p)) ∧
    (∀ path, ¬PathWithin p path →
      after.switched.urls.get? path = before.switched.urls.get? path) ∧
    (∀ q ≠ p, after.monitor.databases.get? q = before.monitor.databases.get? q) ∧
    after.monitor.lastCheck = before.monitor.lastCheck ∧
    after.externals = before.externals := by
  intro p before after
  have hcache : after.cache = before.cache.forgetProject p := rfl
  have hswitched : after.switched = before.switched.forgetProject p := rfl
  have hmonitor : after.monitor.databases = before.monitor.databases.erase p := rfl
  have hroot : ¬(Resource.root = p ∨ p.isAncestorOf .root) :=
    Resource.not_within_project_root name
  rw [hcache, hswitched, hmonitor]
  -- Conditions on paths become conditions on places, which is what the cache goes by.
  refine ⟨rfl, fun r hr hin => ?_, ?_, fun path hin => ?_, ?_, fun r hr hout => ?_, ?_,
    fun path hout => ?_, fun q hq => ?_, rfl, rfl⟩
  · have hwithin : r = p ∨ p.isAncestorOf r := (Resource.within_project_iff hr).2 hin
    refine ⟨?_, Option.eq_none_iff_forall_ne_some.2 fun record hget => ?_, ?_⟩
    · rw [Cache.records_forgetProject, if_pos hwithin]
    · exact (get?_of_forgetProject hget).2 hwithin
    · rw [Cache.buckets_forgetProject, if_pos hwithin]
  · rw [Cache.bucket_forgetProject, if_neg hroot, if_pos rfl]
    simp
  · exact get?_forgetProject_of_pathWithin before.switched hin
  · rw [Monitor.watches, hmonitor, Table.contains, Table.get?_erase, if_pos rfl]
    simp
  · have hwithin : ¬(r = p ∨ p.isAncestorOf r) :=
      Resource.not_within_of_not_pathWithin hr hout
    refine ⟨?_, ?_, fun hne => ?_⟩
    · rw [Cache.records_forgetProject, if_neg hwithin]
    · exact get?_forgetProject before.cache hwithin fun q hq =>
        Resource.not_within_project_parent hr hwithin hq
    · rw [Cache.buckets_forgetProject, if_neg hwithin, if_neg hne]
  · rw [Cache.buckets_forgetProject, if_neg hroot, if_pos rfl]
  · exact get?_forgetProject_of_not_pathWithin before.switched hout
  · rw [Table.get?_erase, if_neg hq]

/-- A project is forgotten, next to one whose name begins with its own. -/
theorem forgetProject_exact_neighbours :
    let s := ({ storage := make {} 0 } : Session).run
      [(Env.silent, .status (.file "/p/f")), (Env.silent, .status (.file "/pq/f"))]
    let p := Resource.project "p"
    let before := s.storage.state.cache
    let after := ((forgetProject p).run s).2.storage.state.cache
    (before.get? (.file "/p/f")).isSome ∧ after.get? (.file "/p/f") = none ∧
      (before.get? (.file "/pq/f")).isSome ∧
      after.get? (.file "/pq/f") = before.get? (.file "/pq/f") := by
  intro s p before after
  have hin : (p.path ++ "/").toList <+: (Resource.file "/p/f").path.toList := by
    decide +kernel
  have hout : ¬PathWithin p (Resource.file "/pq/f").path := by
    unfold PathWithin
    decide +kernel
  obtain ⟨-, hgone, -, -, -, hkept, -⟩ := forgetProject_exact "p" s
  refine ⟨?_, (hgone _ (.path "/p/f" .file) (.inr hin)).2.1, ?_,
    (hkept _ (.path "/pq/f" .file) hout).2.1⟩
  · unfold before s
    cbv
  · unfold before s
    cbv

end Storage
end StatusCache
