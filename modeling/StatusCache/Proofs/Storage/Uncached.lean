/-
# Answers without a cache

A storage without a cache looks everything up anew. One would expect the answers of a new storage
that has a cache, and mostly gets them. What goes wrong goes wrong at a container above the resource
in question: with a cache, a container outside of version control is scanned together with its
members, which get records with its status; and the record of a member is read back when the member
is looked up itself. Where all these containers are versioned, or new, linked or ignored, both
storages answer alike (`status_uncached`).
-/

import StatusCache.Proofs.Checkout
import StatusCache.Proofs.Lookup.Uncached
import StatusCache.Proofs.Storage.Quiet

namespace StatusCache

namespace Lookup

variable {env : Env} {r : Resource}

/-- The same world with nothing cached. -/
def World.cleared (w : World) : World := { w with state := { w.state with cache := {} } }

/-- Without a cache, what is cached makes no difference to the answer. -/
theorem reload_of_disabled (hdisabled : env.options.cacheEnabled = false) (r : Resource)
    (depth : Depth) (w : World) :
    ((reload env r depth).run w).1 = ((reload env r depth).run w.cleared).1 := by
  have hclear : ∀ load : Unit → Action Record,
      ((change fun s => { s with cache := {} }) >>= load).run w =
        ((change fun s => { s with cache := {} }) >>= load).run w.cleared := fun _ => rfl
  cases hp : r.parent? with
  | none =>
    rw [reload, Resource.ancestors_of_parent?_none hp]
    rfl
  | some p =>
    rw [reload_of_parent? hp]
    split
    · unfold loadSubtree
      split
      · rfl
      split
      · rfl
      simp only [hdisabled, Bool.not_false, if_true, orInvalid]
      rw [run_tryCatch, run_tryCatch, hclear]
    · rfl

end Lookup

namespace Storage

variable {env : Env} {config : Config} {s : Session} {r : Resource}

/-- The same settings without a cache. -/
def uncached (config : Config) : Config :=
  { config with cache := { config.cache with enabled := false } }

/-- A lookup without a cache. -/
theorem configEnv_uncached (env : Env) (config : Config) :
    configEnv env (uncached config) = (configEnv env config).withCache false := rfl

/-- What looking up a container leaves in new storages makes no difference to a child: the container
is versioned, or it is plain and the storage without a cache has no record of the child. -/
def Harmless (env : Env) (config : Config) (now : Int) (b c : Resource) : Prop :=
  ∀ record, ((status env b).run { storage := make config now }).1 = .ok record →
    record.baseRevision ≠ unknownRevision ∨ Lookup.IsPlain record ∧
      (Request.run env { storage := make (uncached config) now }
        (.status b)).storage.state.cache.get? c = none

instance {x : Except Error Record} {P : Record → Prop} [DecidablePred P] :
    Decidable (∀ record, x = .ok record → P record) :=
  match x with
  | .ok record =>
    decidable_of_iff (P record) ⟨fun h _ heq => Except.ok.inj heq ▸ h, fun h => h record rfl⟩
  | .error _ => isTrue fun _ h => nomatch h

instance (env : Env) (config : Config) (now : Int) (b c : Resource) :
    Decidable (Harmless env config now b c) :=
  inferInstanceAs (Decidable (∀ _, _ = _ → _))

/-- A new storage answers like any lookup from nothing, and leaves the same records. -/
theorem status_of_reload (hb : env.backend.Steady) (hcalm : env.backend.Calm)
    {w v : Lookup.World} {record : Record} (hw : w.state.cache = {})
    (hrun : (Lookup.reload (configEnv env config) r .one).run w = (.ok record, v)) (now : Int) :
    ((status env r).run { storage := make config now }).1 = .ok record ∧
      ∀ k, (Request.run env { storage := make config now } (.status r)).storage.state.cache.get? k =
        v.state.cache.get? k := by
  have hanswers : Lookup.Answers (fun _ => True) (Lookup.reload (configEnv env config) r .one) :=
    Lookup.answers_reload hb hcalm (fun _ _ _ _ => trivial) trivial .one
  obtain ⟨record', v', u, hrun', hu, hend⟩ :=
    hanswers w { state := (make config now).state } fun k _ => by rw [hw]; rfl
  rw [hrun] at hrun'
  obtain ⟨⟨rfl⟩, rfl⟩ := Prod.mk.inj hrun'
  have hlookup : (Lookup.lookup (configEnv env config) r .one).run
      { state := (make config now).state } = (.ok record, u) := by
    rw [Lookup.lookup, Lookup.run_cachedOr_of_not_cached (Cache.get?_empty r), hu]
  obtain ⟨hstatus, hstate⟩ : ((status env r).run { storage := make config now }).1 = .ok record ∧
      (Request.run env { storage := make config now } (.status r)).storage.state = u.state :=
    status_of_lookup hlookup
  exact ⟨hstatus, fun k => by rw [hstate, hend k trivial]⟩

/-- A container that is harmless to a storage is so to its lookups. -/
theorem Harmless.lookup (hb : env.backend.Steady) (hcalm : env.backend.Calm) {now : Int}
    {b c : Resource} (h : Harmless env config now b c) :
    Lookup.Harmless (configEnv env config) b c := by
  intro w w' record v v' hw hw' hrun hrun'
  rw [← configEnv_uncached] at hrun'
  refine (h record (status_of_reload hb hcalm hw hrun now).1).imp_right fun hplain => ?_
  rwa [← (status_of_reload hb hcalm hw' hrun' now).2 c]

/-- **A storage without a cache answers like a new one with a cache**, if no container above the
resource, but for the root, is unversioned in a way that its members would not inherit. -/
theorem status_uncached (hb : env.backend.Steady) (hcalm : env.backend.Calm)
    (henabled : config.cache.enabled) (hhost : env.host.TreeAbove r) (now : Int)
    (hs : lookupEnv env s.storage = configEnv env (uncached config))
    (hharmless : ∀ c ∈ r.lineage, ∀ b ∈ c.parent?, b.kind ≠ .root → Harmless env config now b c) :
    ∃ record, ((status env r).run { storage := make config now }).1 = .ok record ∧
      ((status env r).run s).1 = .ok record := by
  let e := configEnv env config
  let fresh : Lookup.World := { state := (make config now).state }
  let w : Lookup.World := { state := s.storage.state, calls := s.calls }
  have hfresh : fresh.state.cache = {} := rfl
  have hcleared : w.cleared.state.cache = {} := rfl
  obtain ⟨record, v, v', hrun, hrun', -⟩ :=
    Lookup.reload_uncached hb hcalm henabled hhost
      (fun c hc b hcb hroot => (hharmless c hc b hcb hroot).lookup hb hcalm)
      r.self_mem_lineage hfresh hcleared s.storage.suggestedDepth
  refine ⟨record, (status_of_reload hb hcalm hfresh hrun now).1, ?_⟩
  have hload : ((Lookup.lookup (e.withCache false) r s.storage.suggestedDepth).run w).1 =
      .ok record := by
    change ((Lookup.reload (e.withCache false) r s.storage.suggestedDepth).run w).1 = _
    rw [Lookup.reload_of_disabled rfl, hrun']
  rcases hlookup : (Lookup.lookup (e.withCache false) r s.storage.suggestedDepth).run w with
    ⟨result, u⟩
  obtain rfl : result = .ok record := by rw [← hload, hlookup]
  rw [← configEnv_uncached, ← hs] at hlookup
  exact (status_of_lookup hlookup).1

/-- A file in a new folder of a working copy has the same status with and without a cache. -/
theorem status_uncached_new :
    let new : Entry := { path := ⟨"wc/a"⟩, kind := .dir, text := .unversioned }
    let nodes : List (Disk.Place × Disk.Node) :=
      [(["wc", "a"], .dir 0), (["wc", "a", "f"], .file [] 0)]
    let known : Backend.Fixed :=
      { status := [("wc", .ok [{ Checkout.root with revision := 7 }]), ("wc/a", .ok [new])] }
    let env := Checkout.env nodes known
    let s : Session := { storage := make (uncached {}) 0 }
    let r := Resource.file "/p/a/f"
    ∃ record, ((status env r).run Checkout.start).1 = .ok record ∧
      ((status env r).run s).1 = .ok record := by
  intro new nodes known env s r
  have hcalm : env.backend.Calm := by
    refine known.calm (fun path => ?_) (by simp [known])
    simp only [known, List.lookup_cons, List.lookup_nil]
    grind
  have hhost : env.host.TreeAbove r :=
    Checkout.workspace.treeAbove_host (by decide +kernel)
      (Resource.Built.path "/p/a/f" .file).wellFormed
  have hharmless : ∀ c ∈ r.lineage, ∀ b ∈ c.parent?, b.kind ≠ .root → Harmless env {} 0 b c := by
    unfold r env known nodes new
    decide +kernel
  exact status_uncached known.steady hcalm rfl hhost 0 rfl hharmless

end Storage
end StatusCache
