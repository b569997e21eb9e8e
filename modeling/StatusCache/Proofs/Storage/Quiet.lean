/-
# Sessions without a refresh

A storage that is only asked, in surroundings that stay as they are, answers the same question
differently at different times: what other questions have left in the cache is seen. It is seen in
one place only. The answer for a resource is its cached record, and where that is missing depends on
the records of the containers above it (`Quiet.status_eq`). What is cached beside or below, and the
order in which it came there, does not matter.
-/

import StatusCache.Proofs.Checkout
import StatusCache.Proofs.Lookup.Agree
import StatusCache.Proofs.Storage.Reachable

open Relation (ReflTransGen)

namespace StatusCache

namespace Storage

variable {env : Env} {config : Config} {s s' : Session} {r : Resource}

/-- The sessions of a storage with these settings that is asked, and never told to refresh. -/
inductive Quiet (env : Env) (config : Config) : Session → Prop
  | start (now : Int) : Quiet env config { storage := make config now }
  | request {s : Session} (h : Quiet env config s) {q : Request} (hq : q.Looks) :
      Quiet env config (q.run env s)

/-- What a lookup of a storage with these settings may ask. -/
def configEnv (env : Env) (config : Config) : Lookup.Env :=
  Storage.lookupEnv env (make config 0)

/-- Lookups do not change the settings. -/
theorem settings_of_steps (h : ReflTransGen (Step env) s s') :
    lookupEnv env s'.storage = lookupEnv env s.storage ∧
      s'.storage.suggestedDepth = s.storage.suggestedDepth := by
  induction h with
  | refl => exact ⟨rfl, rfl⟩
  | tail _ hlast ih => cases hlast <;> exact ih

/-- A quiet session has the settings that it started with. -/
theorem Quiet.settings (h : Quiet env config s) :
    lookupEnv env s.storage = configEnv env config ∧ s.storage.suggestedDepth = .one := by
  induction h with
  | start now => exact ⟨rfl, rfl⟩
  | request _ hq ih =>
    obtain ⟨henv, hdepth⟩ := settings_of_steps (Request.steps env _ hq)
    exact ⟨henv.trans ih.1, hdepth.trans ih.2⟩

/-- A storage answers with the record that its lookup gives, and keeps the state that it leaves. -/
theorem status_of_lookup {record : Record} {w : Lookup.World}
    (hrun : (Lookup.lookup (lookupEnv env s.storage) r s.storage.suggestedDepth).run
      { state := s.storage.state, calls := s.calls } = (.ok record, w)) :
    ((status env r).run s).1 = .ok record ∧
      (Request.run env s (.status r)).storage.state = w.state := by
  rw [Request.run, run_status_eq, run_runLookup, hrun]
  exact ⟨rfl, rfl⟩

/-- One that was never told to refresh looks up to depth one. -/
theorem Quiet.status_of_lookup (h : Quiet env config s) {record : Record} {w : Lookup.World}
    (hrun : (Lookup.lookup (configEnv env config) r .one).run
      { state := s.storage.state, calls := s.calls } = (.ok record, w)) :
    ((status env r).run s).1 = .ok record := by
  obtain ⟨henv, hdepth⟩ := h.settings
  rw [← henv, ← hdepth] at hrun
  exact (Storage.status_of_lookup hrun).1

/-- **An answer depends on the history only through the records of the resource and of what is above
it.** Two sessions of a storage that was never told to refresh answer alike for a resource if they
have the same record for it, or both have none and have the same records above it. One of them may
be a new storage, which has no records. -/
theorem Quiet.status_eq (hb : env.backend.Steady) (hcalm : env.backend.Calm)
    (henabled : config.cache.enabled) (h : Quiet env config s) (h' : Quiet env config s')
    (hself : s.storage.state.cache.get? r = s'.storage.state.cache.get? r)
    (habove : s.storage.state.cache.get? r = none →
      ∀ a ∈ r.ancestors, s.storage.state.cache.get? a = s'.storage.state.cache.get? a) :
    ∃ record, ((status env r).run s).1 = .ok record ∧ ((status env r).run s').1 = .ok record := by
  by_cases hr : (configEnv env config).isAccessible r
  · cases hcached : s.storage.state.cache.get? r with
    | some record =>
      exact ⟨record,
        h.status_of_lookup (Lookup.run_lookup_of_cached henabled hr hcached .one),
        h'.status_of_lookup (Lookup.run_lookup_of_cached henabled hr (hself ▸ hcached) .one)⟩
    | none =>
      have hagree : Lookup.Agree (· ∈ r.lineage)
          { state := s.storage.state, calls := s.calls }
          { state := s'.storage.state, calls := s'.calls } := by
        intro a ha
        rcases List.mem_cons.1 ha with rfl | ha
        · exact hself
        · exact habove hcached a ha
      have hanswers : Lookup.Answers (· ∈ r.lineage)
          (Lookup.lookup (configEnv env config) r .one) :=
        Lookup.answers_lookup hb hcalm (Lookup.upward_lineage r) r.self_mem_lineage .one
      obtain ⟨record, w, w', hrun, hrun', -⟩ := hanswers _ _ hagree
      exact ⟨record, h.status_of_lookup hrun, h'.status_of_lookup hrun'⟩
  · exact ⟨Record.invalid r,
      h.status_of_lookup (Lookup.run_lookup_of_inaccessible hr .one),
      h'.status_of_lookup (Lookup.run_lookup_of_inaccessible hr .one)⟩

/-- After the lookup of a folder, another one is answered as if only their container had been looked
up. -/
theorem Quiet.status_eq_sibling :
    let known : Backend.Fixed :=
      { status := [("wc", .ok [Checkout.root]),
          ("wc/a", .ok [Checkout.folder "wc/a" "http://h/r/trunk/a"]),
          ("wc/b", .ok [Checkout.folder "wc/b" "http://h/r/trunk/b"])] }
    let env := Checkout.env [(["wc", "a"], .dir 0), (["wc", "b"], .dir 0)] known
    let s := Request.run env Checkout.start (.status (.folder "/p/b"))
    let s' := Request.run env Checkout.start (.status Checkout.project)
    let r := Resource.folder "/p/a"
    ∃ record, ((status env r).run s).1 = .ok record ∧ ((status env r).run s').1 = .ok record := by
  intro known env s s' r
  have hcalm : env.backend.Calm := by
    refine known.calm (fun path => ?_) (by simp [known])
    simp only [known, List.lookup_cons, List.lookup_nil]
    grind
  have h : Quiet env {} s := .request (.start 0) trivial
  have h' : Quiet env {} s' := .request (.start 0) trivial
  have hself : s.storage.state.cache.get? r = none ∧ s'.storage.state.cache.get? r = none := by
    unfold s s' env known
    decide +kernel
  have habove : ∀ a ∈ r.ancestors,
      s.storage.state.cache.get? a = s'.storage.state.cache.get? a := by
    unfold s s' env known
    decide +kernel
  exact h.status_eq known.steady hcalm rfl h' (hself.1.trans hself.2.symm) fun _ => habove

end Storage
end StatusCache
