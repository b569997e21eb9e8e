/-
# What lies below an opaque container

A container that is flagged as a symlink or as forbidden is opaque: what lies below it is not to be
classified on its own. That holds of the answers, but one would also expect that the backend is not
asked. Whether it is asked is decided by how the nearest cached container is classified, and by what
the containers below it are passed over for, and never by the flags (`status_asks_iff`). Below an
opaque container outside of version control the backend is mostly left alone for that reason. It is
asked about what a versioned symlink holds, and about what a nested working copy holds, however
opaque the containers above it are.
-/

import StatusCache.Proofs.Checkout
import StatusCache.Proofs.Lookup.Asking
import StatusCache.Proofs.Storage.Failure
import StatusCache.Proofs.Storage.Operation

namespace StatusCache

namespace Lookup

instance (env : Env) (r : Resource) : Decidable (env.Enters r) :=
  inferInstanceAs (Decidable (_ ∧ _ ∧ _))

instance (env : Env) (above : Record) (p : Resource) : Decidable (env.Opens above p) :=
  inferInstanceAs (Decidable (_ ∧ _ ∨ _ ∧ _))

instance (env : Env) (r p : Resource) : Decidable (env.Located r p) :=
  inferInstanceAs (Decidable (_ ∧ _))

instance (env : Env) (above : Record) (r : Resource) : Decidable (env.Queries above r) :=
  inferInstanceAs (Decidable (∃ d ∈ r.lineage, ∃ p ∈ d.parent?, env.Opens above p ∧
    env.Located d p ∧ ∀ x ∈ r.lineage, d ∈ x.lineage → env.Enters x))

end Lookup

namespace Storage

variable {env : Env} {s : Session} {r : Resource} {above : Record}

/-- **When a status below a cached container is asked for.** Whatever a storage with a cache has been
asked or told, a request for the status of a resource without a record, with a cached container above
it, leads to a request to the backend if and only if the project is open and shared, some container
on the way down opens the way to the backend, and nothing on the way from there to the resource stops
the lookup. A container opens the way if it is the one with the nearest record, and that is versioned
or an external, or if it lies below that and is passed over by scans. -/
theorem status_asks_iff (config : Config) (now : Int) (ops : List (Env × Operation))
    (hs : ({ storage := make config now } : Session).run ops = s)
    (henabled : s.storage.cacheEnabled) (hmiss : s.storage.state.cache.get? r = none)
    (habove : s.storage.state.cache.nearestAbove? r = some above) :
    ((status env r).run s).2.calls ≠ s.calls ↔
      (lookupEnv env s.storage).isAccessible r ∧ (r.project?.bind env.host.binding?).isSome ∧
        (lookupEnv env s.storage).Queries above r := by
  let e := lookupEnv env s.storage
  let w : Lookup.World := { state := s.storage.state, calls := s.calls }
  have hcalls : ((status env r).run s).2.calls =
      ((Lookup.lookup e r s.storage.suggestedDepth).run w).2.calls := (run_status env r s).2.1
  have hkeyed : s.storage.state.cache.Keyed := hs ▸ keyed_run config now ops
  rw [hcalls]
  by_cases haccessible : e.isAccessible r
  · cases hbinding : r.project?.bind env.host.binding? with
    | none =>
      rw [Lookup.run_lookup_of_unshared hmiss hbinding]
      exact iff_of_false (fun h => h rfl) fun h => by simp at h
    | some binding =>
      have hdecides : Lookup.Decides (e.Queries above r) (e.passesOver r)
          (Lookup.lookup e r s.storage.suggestedDepth) w :=
        Lookup.decides_lookup henabled hkeyed haccessible hbinding hmiss habove _
      constructor
      · intro hasked
        refine ⟨haccessible, rfl, by_contra fun hqueries => hasked ?_⟩
        obtain ⟨record, w', hrun, hquiet, -⟩ := hdecides.quiet hqueries
        rw [hrun]
        exact hquiet.calls
      -- What is asked stands on the list of calls, which is then longer than before.
      · rintro ⟨-, -, hqueries⟩ hsame
        have hlonger := hdecides.asked hqueries
        rw [hsame] at hlonger
        exact lt_irrefl _ hlonger
  · rw [Lookup.run_lookup_of_inaccessible haccessible]
    exact iff_of_false (fun h => h rfl) fun h => haccessible h.1

/-- A file below a versioned symlink. -/
theorem status_asks_iff_symlink :
    let link : Entry := { path := ⟨"wc/link"⟩, kind := .symlink, text := .normal }
    let env := Checkout.env
      [(["wc", "link"], .link "../out"), (["out"], .dir 0), (["out", "x"], .file [] 0)]
      { status := [("wc", .ok [Checkout.root]), ("wc/link", .ok [link])] }
    let s := Checkout.start.run [(env, .status (.folder "/p/link"))]
    let r := Resource.file "/p/link/x"
    ∃ above, s.storage.state.cache.nearestAbove? r = some above ∧ above.mask.isOpaque ∧
      ((status env r).run s).2.calls ≠ s.calls := by
  intro link env s r
  let above := Record.bare (.folder "/p/link") .normal { symlink := true }
  have henabled : s.storage.cacheEnabled := by
    unfold s env link
    decide +kernel
  have hmiss : s.storage.state.cache.get? r = none := by
    unfold r s env link
    decide +kernel
  have habove : s.storage.state.cache.nearestAbove? r = some above := by
    unfold above r s env link
    decide +kernel
  have hreaches : (lookupEnv env s.storage).isAccessible r ∧
      (r.project?.bind env.host.binding?).isSome ∧ (lookupEnv env s.storage).Queries above r := by
    unfold above r s env link
    decide +kernel
  exact ⟨above, habove, rfl, (status_asks_iff {} 0 _ rfl henabled hmiss habove).2 hreaches⟩

end Storage
end StatusCache
