/-
# What a status leaves

What a storage with a cache answers as the status of a resource is what it has cached by then, so it
answers the same again. Where nothing can be said about the resource there is mostly no record of it;
if there is one, the lookup has given up on the resource (`Lookup.GivenUp`), and the record comes
from a time when the project was accessible, or from the lookup of what is above
(`status_outcome`).
-/

import StatusCache.Proofs.Checkout
import StatusCache.Proofs.Lookup.Outcome
import StatusCache.Proofs.Storage.Canonical
import StatusCache.Proofs.Storage.InFlight

namespace StatusCache

namespace Storage

variable {env : Env} {s s' : Session} {r : Resource} {record : Record}

/-- No cached record says that nothing can be said, whatever the hosts of a run take to be folders
for build output. -/
theorem not_isInvalid_of_cached (config : Config) (now : Int) (ops : List (Env × Operation))
    (hget : (({ storage := make config now } : Session).run ops).storage.state.cache.get? r =
      some record) : ¬record.isInvalid := by
  have hstart : Canonical (fun _ => false) (make config now).state.cache := fun r record hget => by
    simp [make] at hget
  have hrun : Canonical (fun _ => false)
      (({ storage := make config now } : Session).run ops).storage.state.cache :=
    Session.run_induction (I := fun s => Canonical (fun _ => false) s.storage.state.cache)
      (fun env op s _ hs => hs.run_of_subset (by simp) op) hstart
  have htext := (hrun r record hget).2.text
  simpa [Record.isInvalid] using htext

/-- **What a status leaves cached.** Whatever a storage has been asked or told, with its cache
enabled: if it answers a request for a status with a record that has one, then it has cached this very
record, and answers with it again. Otherwise it has no record of the resource, or it has given up on
it. -/
theorem status_outcome (config : Config) (now : Int) (ops : List (Env × Operation))
    (hs : ({ storage := make config now } : Session).run ops = s)
    (henabled : s.storage.cacheEnabled) (hself : ¬env.host.Holds r r)
    (hrun : (status env r).run s = (.ok record, s')) :
    (¬record.isInvalid ∧ s'.storage.state.cache.get? r = some record ∧
      (status env r).run s' = (.ok record, s')) ∨
    record = Record.invalid r ∧ (s'.storage.state.cache.get? r = none ∨
      ∃ w : Lookup.World, w.state = s'.storage.state ∧ w.calls = s'.calls ∧
        Lookup.GivenUp (lookupEnv env s.storage) r s.storage.suggestedDepth
          { state := s.storage.state, calls := s.calls } w) := by
  rw [run_status_eq] at hrun
  obtain ⟨w, hlookup, hstate, hcalls, hsame⟩ := exists_of_run_runLookup hrun
  rw [← run_status_eq] at hrun
  -- What a session has cached is never without a status, before or after.
  have hvalid : ∀ record, w.state.cache.get? r = some record → ¬record.isInvalid := by
    intro record hget
    have hlater : ({ storage := make config now } : Session).run (ops ++ [(env, .status r)]) = s' := by
      rw [Session.run_append, hs]
      exact congrArg Prod.snd hrun
    rw [← hstate, ← hlater] at hget
    exact not_isInvalid_of_cached config now _ hget
  have hbefore : ∀ record, s.storage.state.cache.get? r = some record → ¬record.isInvalid :=
    fun record hget => not_isInvalid_of_cached config now ops (hs ▸ hget)
  have houtcome : Lookup.Outcome (lookupEnv env s.storage) r s.storage.suggestedDepth
      { state := s.storage.state, calls := s.calls } record w :=
    Lookup.lookup_outcome henabled hself hvalid hbefore hlookup
  cases houtcome with
  | answered hrecord hcached =>
    have hr : (lookupEnv env s.storage).isAccessible r := by
      by_contra hr
      rw [Lookup.run_lookup_of_inaccessible hr] at hlookup
      cases hlookup
      exact hrecord rfl
    rw [← hstate] at hcached
    exact .inl ⟨hrecord, hcached, status_of_cached (hsame.trans henabled) hr hcached⟩
  | unknown hnone => exact .inr ⟨rfl, .inl (hstate ▸ hnone)⟩
  | givenUp h => exact .inr ⟨rfl, .inr ⟨w, hstate.symm, hcalls.symm, h⟩⟩

/-- A project is closed after its status was asked for. It has no status then, but its record is still
there, and the storage has given up on it. -/
theorem status_outcome_closed :
    let env := Checkout.env [] { status := [("wc", .ok [Checkout.root])] }
    let r := Checkout.project
    let closed : Env :=
      { env with host := (Checkout.workspace.setOpen r false).host (Checkout.disk []) }
    let s := Checkout.start.run [(env, .status r)]
    let s' := ((status closed r).run s).2
    s'.storage.state.cache.get? r = some (Record.bare r .normal {}) ∧
      ∃ w : Lookup.World, w.state = s'.storage.state ∧ w.calls = s'.calls ∧
        Lookup.GivenUp (lookupEnv closed s.storage) r s.storage.suggestedDepth
          { state := s.storage.state, calls := s.calls } w := by
  intro env r closed s s'
  have hself : ¬closed.host.Holds r r := Checkout.not_holds_project (by decide +kernel) false
  have henabled : s.storage.cacheEnabled := by
    unfold s r env
    decide +kernel
  have hcached : s'.storage.state.cache.get? r = some (Record.bare r .normal {}) := by
    unfold s' s closed r env
    decide +kernel
  have hanswer : ((status closed r).run s).1 = .ok (Record.invalid r) := by
    unfold s closed r env
    decide +kernel
  have hrun : (status closed r).run s = (.ok (Record.invalid r), s') :=
    (Prod.eta _).symm.trans (congrArg (·, s') hanswer)
  have houtcome := status_outcome {} 0 [(env, .status r)] rfl henabled hself hrun
  clear_value s'
  rcases houtcome with ⟨hvalid, -⟩ | ⟨-, hnone | hgiven⟩
  · exact absurd rfl hvalid
  · rw [hcached] at hnone
    cases hnone
  · exact ⟨hcached, hgiven⟩

/-- The request for a folder fails, after the one for its project has told of it. The folder has no
status then, but a record, with which the next request is answered. -/
theorem status_outcome_failed :
    let env := Checkout.env [(["wc", "a"], .dir 0)]
      { status := [("wc", .ok [Checkout.folder "wc/a" "http://h/r/trunk/a"]),
          ("wc/a", .error (.failed "no answer"))] }
    let r := Resource.folder "/p/a"
    let s := Checkout.start
    let s' := ((status env r).run s).2
    ((status env r).run s).1 = .ok (Record.invalid r) ∧
      s'.storage.state.cache.get? r = some (Record.bare r .normal {}) ∧
      ((status env r).run s').1 = .ok (Record.bare r .normal {}) := by
  intro env r s s'
  unfold s' s r env
  decide +kernel

end Storage
end StatusCache
