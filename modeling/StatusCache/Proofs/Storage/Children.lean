/-
# The children of a container

The children of a container are told from two sources: the members that the host lists now, and the
records of children that are cached (`listing`). A cached record may be older than what the host
lists. If its status is that nothing is there, it tells of no child; with any other status it does,
also where there is nothing any more and nothing was under version control.

`children_listed` says what is listed, in every session: in order, all members, and all cached
children but those that do not exist. So what is neither a member nor under version control is listed
if and only if it is cached as new, ignored or linked. Everything is listed once, unless nothing is
cached for the container and the disk has names in it that read alike, which only names do that are
not UTF-8.
-/

import StatusCache.Proofs.Checkout
import StatusCache.Proofs.Lookup.Failure
import StatusCache.Proofs.Storage.Operation
import StatusCache.Proofs.Topmost
import StatusCache.Proofs.Tree

namespace StatusCache

namespace Resource

/-! ### The order of resources -/

instance : Std.TransOrd Resource :=
  inferInstanceAs (Std.TransCmp (compareLex (compareOn path) (compareOn fun r => r.kind.rank)))

/-- Sorted resources are in order. -/
theorem pairwise_sort (rs : List Resource) :
    (sort rs).Pairwise fun r t => (compare r t).isLE := by
  refine List.pairwise_mergeSort (fun a b c hab hbc => ?_) (fun a b => ?_) rs
  · exact Std.TransOrd.isLE_trans hab hbc
  · rw [Std.OrientedOrd.eq_swap (a := b)]
    cases compare a b <;> rfl

/-- Sorting repeats nothing. -/
theorem nodup_sort {rs : List Resource} (h : rs.Nodup) : (sort rs).Nodup :=
  (List.mergeSort_perm _ _).nodup_iff.2 h

/-- What can be named and lies in a project is not the root. -/
theorem Named.kind_ne_root {r : Resource} (h : r.Named) (hproject : r.project?.isSome) :
    r.kind ≠ .root := by
  cases h with
  | root => cases hproject
  | project name => exact fun hroot => nomatch hroot
  | path path kind =>
    have hwell := (Built.path path kind).wellFormed
    intro hroot
    rw [project?, hwell.names_eq, hwell.kind_eq_root.1 hroot] at hproject
    cases hproject

end Resource

/-- The members of a container are listed in order. -/
theorem Workspace.pairwise_members (w : Workspace) (d : Disk) (c : Resource) :
    (w.members d c).Pairwise fun r t => (compare r t).isLE := by
  unfold members
  split
  · exact Resource.pairwise_sort _
  split
  · exact List.Pairwise.nil
  · exact Resource.pairwise_sort _

/-- The children of a container are the cached records with that parent. -/
theorem Cache.Tied.mem_children? {c : Cache} {p : Resource} {record : Record} (h : c.Tied)
    (hkeyed : c.Keyed) : record ∈ (c.children? p).getD [] ↔
      c.get? record.resource = some record ∧ record.resource.parent? = some p := by
  have hlist : (c.children? p).getD [] = (c.bucket p).filterMap c.records.get? := by
    unfold children? bucket
    cases c.buckets.get? p <;> rfl
  rw [hlist, List.mem_filterMap]
  constructor
  · rintro ⟨r, hmem, hr⟩
    have hget : c.get? r = some record := get?_eq_some.2 ⟨p, h.parent hmem, hmem, hr⟩
    obtain rfl := hkeyed r record hget
    exact ⟨hget, h.parent hmem⟩
  · rintro ⟨hget, hp⟩
    obtain ⟨q, hq, hmem, hr⟩ := get?_eq_some.1 hget
    obtain rfl := Option.some.inj (hp.symm.trans hq)
    exact ⟨record.resource, hmem, hr⟩

namespace Storage

variable {env : Env} {s s' : Session} {c r : Resource} {host : Host} {cache : Cache}

/-! ### The listing -/

/-- The children of a container, by what the host lists and what is cached. -/
def listing (host : Host) (cache : Cache) (c : Resource) : List Resource :=
  match cache.children? c with
  | none => host.members c
  | some records =>
    Resource.sort
      (host.members c ++
        (records.filter fun r => r.status ≠ .notExists).map (·.resource)).eraseDups

/-- A request for children loads a container that has no bucket, and then lists them. -/
theorem run_children (hproject : c.project?.isSome) (env : Env) (s : Session) :
    (children env c).run s =
      if s.storage.state.cache.hasBucket c then
        (.ok (listing env.host s.storage.state.cache c), s)
      else
        match (runLookup env fun e => Lookup.reload e c .one).run s with
        | (.ok _, s') => (.ok (listing env.host s'.storage.state.cache c), s')
        | (.error e, s') => (.error e, s') := by
  have hsome : c.project?.isNone = false := by rwa [Option.isNone_eq_false_iff]
  -- Both ways end with the same look at the session that is there then.
  have hlist : ∀ u : Session,
      (do
        match (← get).storage.state.cache.children? c with
        | none => return env.host.members c
        | some records =>
          let known := (records.filter fun r => r.status ≠ .notExists).map (·.resource)
          return Resource.sort (env.host.members c ++ known).eraseDups :
        Action (List Resource)).run u = (.ok (listing env.host u.storage.state.cache c), u) := by
    intro u
    rw [run_bind_ok (run_get u), listing]
    split <;> rfl
  unfold children
  simp only [hsome, Bool.false_eq_true, if_false]
  rw [run_bind_ok (run_get s)]
  by_cases hbucket : s.storage.state.cache.hasBucket c
  · simp only [hbucket, Bool.not_true, Bool.false_eq_true, if_false, if_true]
    exact hlist s
  · simp only [hbucket, Bool.not_false, if_true]
    rw [run_bind]
    rcases (runLookup env fun e => Lookup.reload e c .one).run s with ⟨e | record, u⟩
    · rfl
    · exact hlist u

/-- Children that are told are listed from what is cached afterwards: either the container has a
bucket, or it was loaded. -/
theorem exists_of_run_children {found : List Resource} (hproject : c.project?.isSome)
    (hrun : (children env c).run s = (.ok found, s')) :
    found = listing env.host s'.storage.state.cache c ∧
      (s.storage.state.cache.hasBucket c ∧ s' = s ∨
        ∃ record, (runLookup env fun e => Lookup.reload e c .one).run s = (.ok record, s')) := by
  rw [run_children hproject] at hrun
  split at hrun
  next hbucket =>
    cases hrun
    exact ⟨rfl, .inl ⟨hbucket, rfl⟩⟩
  · split at hrun
    next record u hload =>
      cases hrun
      exact ⟨rfl, .inr ⟨record, hload⟩⟩
    · cases hrun

/-- **What is listed.** The members, and the cached children but those that do not exist. -/
theorem mem_listing (htied : cache.Tied) (hkeyed : cache.Keyed) :
    r ∈ listing host cache c ↔ r ∈ host.members c ∨
      r.parent? = some c ∧ ∃ record, cache.get? r = some record ∧ record.status ≠ .notExists := by
  have hchild : (∃ record ∈ (cache.children? c).getD [],
      record.status ≠ .notExists ∧ record.resource = r) ↔
        r.parent? = some c ∧ ∃ record, cache.get? r = some record ∧ record.status ≠ .notExists := by
    simp only [htied.mem_children? hkeyed]
    constructor
    · rintro ⟨record, ⟨hget, hp⟩, hstatus, rfl⟩
      exact ⟨hp, record, hget, hstatus⟩
    · rintro ⟨hp, record, hget, hstatus⟩
      obtain rfl := hkeyed r record hget
      exact ⟨record, ⟨hget, hp⟩, hstatus, rfl⟩
  rw [← hchild, listing]
  cases cache.children? c with
  | none => simp
  | some records =>
    simp only [Resource.mem_sort, List.mem_eraseDups, List.mem_append, List.mem_map,
      List.mem_filter, decide_eq_true_eq, Option.getD_some, and_assoc]

/-- All that is listed without being a member is under version control, if and only if nothing else
is cached that is no member any more. -/
theorem forall_listing_iff (htied : cache.Tied) (hkeyed : cache.Keyed) :
    (∀ r ∈ listing host cache c, r ∈ host.members c ∨ ∃ record, cache.get? r = some record ∧
        record.status ∉ [Status.new, .ignored, .notExists, .linked]) ↔
      ∀ r record, r.parent? = some c → cache.get? r = some record →
        record.status ∈ [Status.new, .ignored, .linked] → r ∈ host.members c := by
  simp only [List.mem_cons, List.not_mem_nil, or_false, not_or]
  constructor
  · intro hall r record hp hget hstatus
    have hexists : record.status ≠ .notExists := by rcases hstatus with h | h | h <;> simp [h]
    have hlisted : r ∈ listing host cache c :=
      (mem_listing htied hkeyed).2 (.inr ⟨hp, record, hget, hexists⟩)
    refine (hall r hlisted).resolve_right ?_
    rintro ⟨other, hother, hnew, hignored, -, hlinked⟩
    obtain rfl := Option.some.inj (hget.symm.trans hother)
    rcases hstatus with h | h | h
    · exact hnew h
    · exact hignored h
    · exact hlinked h
  · intro hstale r hr
    rcases (mem_listing htied hkeyed).1 hr with hmember | ⟨hp, record, hget, hexists⟩
    · exact .inl hmember
    by_cases hstatus : record.status = .new ∨ record.status = .ignored ∨ record.status = .linked
    · exact .inl (hstale r record hp hget hstatus)
    · obtain ⟨hnew, hignored, hlinked⟩ := not_or.1 hstatus |>.imp_right not_or.1
      exact .inr ⟨record, hget, hnew, hignored, hexists, hlinked⟩

/-- The children are listed in order, if the members are. -/
theorem pairwise_listing
    (h : (host.members c).Pairwise fun r t => (compare r t).isLE) (cache : Cache) :
    (listing host cache c).Pairwise fun r t => (compare r t).isLE := by
  unfold listing
  split
  · exact h
  · exact Resource.pairwise_sort _

/-- Nothing is listed twice, except what the host lists twice where nothing is cached. -/
theorem nodup_listing (h : cache.hasBucket c ∨ (host.members c).Nodup) :
    (listing host cache c).Nodup := by
  unfold listing
  cases hbucket : cache.children? c with
  | none =>
    refine h.resolve_left fun hsome => ?_
    rw [Cache.hasBucket, Table.contains, Option.map_eq_none_iff.1 hbucket] at hsome
    cases hsome
  | some records => exact Resource.nodup_sort (Resource.nodup_eraseDups _)

/-- The children of a container cannot be told if and only if the load of the container is cancelled. -/
theorem children_failed_iff (hproject : c.project?.isSome) (env : Env) (s : Session) :
    (∃ e, ((children env c).run s).1 = .error e) ↔
      env.backend.CancelsSince s.calls ((children env c).run s).2.calls := by
  rw [run_children hproject]
  split
  · exact iff_of_false (fun ⟨_, he⟩ => nomatch he) Backend.not_cancelsSince_self
  · let e := lookupEnv env s.storage
    have hload : Lookup.Stops e.backend Lookup.Cancelled (Lookup.reload e c .one) :=
      Lookup.stops_reload c .one
    have hends : Lookup.Ends env.backend Lookup.Cancelled _ _ :=
      hload { state := s.storage.state, calls := s.calls }
    have hiff := hends.failed_iff
    rw [run_runLookup]
    rcases hrun : (Lookup.reload (lookupEnv env s.storage) c .one).run
        { state := s.storage.state, calls := s.calls } with ⟨e | record, w⟩ <;>
      rw [hrun] at hiff
    · exact iff_of_true ⟨e, rfl⟩ (hiff.1 ⟨e, rfl⟩)
    · exact iff_of_false (fun ⟨_, he⟩ => nomatch he)
        fun hcancels => nomatch (hiff.2 hcancels).choose_spec

/-- **Which children are listed.** In every session, and whatever backend is asked, for a container
of a project whose host lists a disk:

* the children cannot be told if and only if the load of the container is cancelled;
* they are listed in order, and each once if something is cached for the container, or if no two
  names on the disk read alike;
* what is listed are the members, and the cached children whose status is not that nothing is there.
  So all members are listed, and all cached children that are under version control;
* everything listed is a member or under version control if and only if everything that is cached
  for the container as new, ignored or linked is still a member. -/
theorem children_listed (config : Config) (now : Int) {ops : List (Env × Operation)}
    (hs : ({ storage := make config now } : Session).run ops = s) {w : Workspace} {d : Disk}
    (hd : d.Named) (hdistinct : d.nodes.Distinct) (hhost : env.host = w.host d) (hc : c.Named)
    (hproject : c.project?.isSome) :
    ((∃ e, ((children env c).run s).1 = .error e) ↔
      env.backend.CancelsSince s.calls ((children env c).run s).2.calls) ∧
    ∀ found s', (children env c).run s = (.ok found, s') →
      let cache := s'.storage.state.cache
      found.Pairwise (fun r t => (compare r t).isLE) ∧
      (cache.hasBucket c ∨ d.Legible → found.Nodup) ∧
      (∀ r, r ∈ found ↔ r ∈ w.members d c ∨
        r.parent? = some c ∧ ∃ record, cache.get? r = some record ∧ record.status ≠ .notExists) ∧
      ((∀ r ∈ found, r ∈ w.members d c ∨ ∃ record, cache.get? r = some record ∧
          record.status ∉ [Status.new, .ignored, .notExists, .linked]) ↔
        ∀ r record, r.parent? = some c → cache.get? r = some record →
          record.status ∈ [Status.new, .ignored, .linked] → r ∈ w.members d c) := by
  refine ⟨children_failed_iff hproject env s, fun found s' hrun => ?_⟩
  intro cache
  have hmembers : w.members d c = env.host.members c := by rw [hhost, Workspace.host]
  -- The cache that is read is that of a session, so it is keyed and its buckets tell the children.
  have hafter : ({ storage := make config now } : Session).run (ops ++ [(env, .children c)]) = s' := by
    rw [Session.run_append, hs]
    exact congrArg Prod.snd hrun
  have htied : cache.Tied := by
    unfold cache
    rw [← hafter]
    exact tied_run config now _
  have hkeyed : cache.Keyed := by
    unfold cache
    rw [← hafter]
    exact keyed_run config now _
  have hordered := w.pairwise_members d c
  have hnodup : d.Legible → (w.members d c).Nodup := fun hlegible =>
    Workspace.nodup_members hd hlegible hdistinct (hc.kind_ne_root hproject)
  rw [hmembers] at hordered hnodup ⊢
  obtain rfl : found = listing env.host cache c := (exists_of_run_children hproject hrun).1
  exact ⟨pairwise_listing hordered cache, fun h => nodup_listing (h.imp_right hnodup),
    fun r => mem_listing htied hkeyed, forall_listing_iff htied hkeyed⟩

/-- A file that was new when its status was asked for is listed after it was removed. -/
theorem children_listed_removed :
    let known : Backend.Fixed := { status := [("wc", .ok [Checkout.root])] }
    let u := Resource.file "/p/u.txt"
    let before := Checkout.env [(["wc", "u.txt"], .file [] 0)] known
    let after := Checkout.env [] known
    let s := Checkout.start.run [(before, .status u)]
    let s' := ((children after Checkout.project).run s).2
    (children after Checkout.project).run s = (.ok [u], s') ∧
      ¬∀ r ∈ [u], r ∈ Checkout.workspace.members (Checkout.disk []) Checkout.project ∨
        ∃ record, s'.storage.state.cache.get? r = some record ∧
          record.status ∉ [Status.new, .ignored, .notExists, .linked] := by
  intro known u before after s s'
  have hdistinct : (Checkout.disk []).nodes.Distinct := by
    unfold Table.Distinct
    decide +kernel
  have hnamed : Checkout.project.Named := .project "p"
  have hmembers : Checkout.workspace.members (Checkout.disk []) Checkout.project = [] := by
    decide +kernel
  have hcached : (s'.storage.state.cache.get? u).map (·.status) = some .new := by
    unfold s' s after before u known
    decide +kernel
  have hanswer : ((children after Checkout.project).run s).1 = .ok [u] := by
    unfold s after before u known
    decide +kernel
  have hrun : (children after Checkout.project).run s = (.ok [u], s') :=
    (Prod.eta _).symm.trans (congrArg (·, s') hanswer)
  have hs : Checkout.start.run [(before, .status u)] = s := rfl
  have hhost : after.host = Checkout.workspace.host (Checkout.disk []) := rfl
  obtain ⟨-, hlisted⟩ :=
    children_listed {} 0 hs (by decide +kernel) hdistinct hhost hnamed rfl
  obtain ⟨-, -, -, hiff⟩ := hlisted [u] s' hrun
  clear_value s'
  obtain ⟨record, hget, hstatus⟩ := Option.map_eq_some_iff.1 hcached
  refine ⟨hrun, fun hall => ?_⟩
  have hmember := hiff.1 hall u record rfl hget (by simp [hstatus])
  rw [hmembers] at hmember
  cases hmember

end Storage
end StatusCache
