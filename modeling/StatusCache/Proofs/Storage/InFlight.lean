/-
# Refreshes and lookups in flight

A refresh drops what is cached, so that the next lookup asks the backend again. It cannot reach a
lookup that is in flight: one whose question the backend has answered, and that has not committed
the answer yet. Nothing tells that lookup of the refresh. It commits its answer afterwards, and the
next lookup takes the record from the cache and asks nobody (`answer_outlives_refresh`), until some
later refresh drops it.

A lookup holds no lock while it asks, so a refresh may come at that moment (`loadAcross`). A lookup
of what is not cached is such a load with nothing in between (`status_of_not_cached`), and so are
the lookups of a fetch job.
-/

import StatusCache.Proofs.Checkout
import StatusCache.Proofs.Lookup.InFlight
import StatusCache.Proofs.Storage.Reachable

namespace StatusCache

/-- One resource alone is topmost. -/
theorem Resource.topmost_singleton (r : Resource) : topmost [r] = [r] := by
  have hself : r.isAncestorOf r = false := by
    unfold isAncestorOf
    split
    next h => simp [h]
    · simp
  simp only [topmost, List.any_cons, hself, List.any_nil, Bool.or_self, Bool.not_false,
    List.filter_cons_of_pos, List.filter_nil]
  rfl

/-- What a bucket held has no record once the bucket is removed. -/
theorem Cache.get?_removeBucket_parent {r p : Resource} (hp : r.parent? = some p) (c : Cache) :
    (c.removeBucket p).get? r = none := by
  rw [Cache.get?, hp]
  simp

namespace Storage

variable {env : Env} {s s' : Session} {r : Resource} {rs : List Resource} {record : Record}
  {depth levels : Depth}

/-- What a refresh does to the shared state. -/
def refreshed (rs : List Resource) (depth : Depth) (st : State) : State :=
  (if depth = .infinite then Resource.topmost rs else rs).foldl (refreshOne depth) st

/-- Loads a resource to some levels, while others are refreshed: the refresh comes after the backend
has answered for the resource, and before the answer is committed. -/
def loadAcross (env : Env) (rs : List Resource) (depth : Depth) (r : Resource) (levels : Depth) :
    Action Record := do
  change fun s => { s with suggestedDepth := if depth = .infinite then .infinite else .one }
  runLookup env fun e => Lookup.reloadAround e (Lookup.change (refreshed rs depth)) r levels

/-- A refresh leaves the state of its resources refreshed. -/
theorem state_refresh (rs : List Resource) (depth : Depth) (s : Session) :
    ((refresh rs depth).run s).2.storage.state = refreshed rs depth s.storage.state := rfl

/-- A lookup of what is not cached is a load with nothing in between. -/
theorem status_of_not_cached (hmiss : s.storage.state.cache.get? r = none) :
    (status env r).run s = (runLookup env fun e =>
      Lookup.reloadAround e (pure ()) r s.storage.suggestedDepth).run s := by
  have hlookup : (Lookup.lookup (lookupEnv env s.storage) r s.storage.suggestedDepth).run
      { state := s.storage.state, calls := s.calls } =
      (Lookup.reload (lookupEnv env s.storage) r s.storage.suggestedDepth).run
        { state := s.storage.state, calls := s.calls } :=
    Lookup.run_cachedOr_of_not_cached hmiss
  rw [run_status_eq, run_runLookup, run_runLookup, hlookup, Lookup.reloadAround_pure]

/-- What is cached is answered without asking, and nothing changes. -/
theorem status_of_cached (henabled : s.storage.cacheEnabled)
    (hr : (lookupEnv env s.storage).isAccessible r)
    (hcached : s.storage.state.cache.get? r = some record) :
    (status env r).run s = (.ok record, s) := by
  rw [run_status_eq, run_runLookup,
    Lookup.run_lookup_of_cached henabled hr hcached s.storage.suggestedDepth]
  rfl

/-- A refresh drops the record of a resource that is cached by then. -/
theorem get?_refresh_self (r : Resource) (depth : Depth) (s : Session) :
    ((refresh [r] depth).run s).2.storage.state.cache.get? r = none := by
  have hroots : (if depth = .infinite then Resource.topmost [r] else [r]) = [r] := by
    rw [Resource.topmost_singleton, ite_self]
  rw [state_refresh, refreshed, hroots, List.foldl_cons, List.foldl_nil, refreshOne]
  simp only
  cases hp : r.parent? with
  | none => simp [Cache.get?, hp]
  | some p => exact Cache.get?_removeBucket_parent hp _

/-- What a lookup ensures of the shared state holds in the session that keeps it. -/
theorem ensures_runLookup {load : Lookup.Env → Lookup.Action Record} {Q : Record → State → Prop}
    (hload : Ensures (fun _ => True) (fun record w => Q record w.state)
      (load (lookupEnv env s.storage)))
    (hrun : (runLookup env load).run s = (.ok record, s')) :
    Q record s'.storage.state ∧ s'.storage.cacheEnabled = s.storage.cacheEnabled := by
  obtain ⟨w, hfound, hstate, -, henabled⟩ := exists_of_run_runLookup hrun
  exact ⟨hstate ▸ hload _ _ w trivial hfound, henabled⟩

/-- **A refresh does not reach an answer in flight.** If a refresh comes after the backend has
answered for a resource and before the answer is committed, then the record that this leads to is
cached in the end, and the next lookup answers with it and asks nobody, whatever the backend would
say by then. A refresh that comes later drops the record. -/
theorem answer_outlives_refresh (henabled : s.storage.cacheEnabled)
    (hself : ¬env.host.Holds r r)
    (hrun : (loadAcross env rs depth r levels).run s = (.ok record, s'))
    (hvalid : ¬record.isInvalid) :
    s'.storage.state.cache.get? r = some record ∧
    (∀ env' : Env, (lookupEnv env' s'.storage).isAccessible r →
      (status env' r).run s' = (.ok record, s')) ∧
    ∀ depth', ((refresh [r] depth').run s').2.storage.state.cache.get? r = none := by
  rw [loadAcross, run_bind_ok (run_change _ s)] at hrun
  have hload : Ensures (fun _ => True)
      (fun record (w : Lookup.World) => record.isInvalid ∨ w.state.cache.get? r = some record)
      (Lookup.reloadAround (lookupEnv env s.storage) (Lookup.change (refreshed rs depth)) r levels) :=
    Lookup.ensures_reloadAround hself _ levels
  obtain ⟨hstands, hsame⟩ := ensures_runLookup
    (Q := fun record st => record.isInvalid ∨ st.cache.get? r = some record) hload hrun
  have hcached := hstands.resolve_left hvalid
  have henabled' : s'.storage.cacheEnabled := hsame.trans henabled
  exact ⟨hcached, fun env' hr => status_of_cached henabled' hr hcached,
    fun depth' => get?_refresh_self r depth' s'⟩

/-- A project is modified while it is looked up, and then refreshed. It still shows as unmodified
afterwards, until it is refreshed once more. -/
theorem answer_outlives_refresh_modified :
    let answer (prop : EntryStatus) : Except Backend.Failure (List Entry) :=
      .ok [{ Checkout.root with prop := prop }]
    let backend : Backend :=
      { status := fun earlier _ _ _ => answer (if earlier = [] then .normal else .modified)
        info := fun _ _ _ => .ok [] }
    let env : Env := { Checkout.env [] {} with backend := backend }
    let s := Checkout.start
    let r := Checkout.project
    let record := Record.bare r .normal {}
    let s' := ((loadAcross env [r] .infinite r .one).run s).2
    s'.storage.state.cache.get? r = some record ∧
    (∀ env' : Env, (lookupEnv env' s'.storage).isAccessible r →
      (status env' r).run s' = (.ok record, s')) ∧
    (∀ depth', ((refresh [r] depth').run s').2.storage.state.cache.get? r = none) ∧
    ((status env r).run ((refresh [r] .zero).run s').2).1.map Record.status = .ok .modified := by
  intro answer backend env s r record s'
  have hself : ¬env.host.Holds r r := Checkout.not_holds_project (by decide +kernel) true
  have hanswer : ((loadAcross env [r] .infinite r .one).run s).1 = .ok record := by
    unfold record r s env backend answer
    decide +kernel
  have hrun : (loadAcross env [r] .infinite r .one).run s = (.ok record, s') :=
    (Prod.eta _).symm.trans (congrArg (·, s') hanswer)
  have hanew : ((status env r).run ((refresh [r] .zero).run s').2).1.map Record.status =
      .ok .modified := by
    unfold s' r s env backend answer
    decide +kernel
  clear_value s'
  obtain ⟨hcached, hanswered, hdropped⟩ := answer_outlives_refresh rfl hself hrun (by decide)
  exact ⟨hcached, hanswered, hdropped, hanew⟩

end Storage
end StatusCache
