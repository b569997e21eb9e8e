/-
# What a failing backend does to a status

A request for a status fails if and only if the backend cancels one of the requests that it makes,
and then nothing more is asked and no more records are committed. Any other failure costs at most
the status of the resource that was asked about, or of a container above it (`status_failed_iff`).
-/

import StatusCache.Proofs.Checkout
import StatusCache.Proofs.Lookup.Lenient
import StatusCache.Proofs.Storage.Reachable

namespace StatusCache

namespace Storage

variable {env : Env} {s : Session} {r : Resource}

/-- The lookup that is run for a status. -/
def statusLookup (env : Env) (r : Resource) (s : Session) :
    Except Error Record × Lookup.World :=
  (Lookup.lookup (lookupEnv env s.storage) r s.storage.suggestedDepth).run
    { state := s.storage.state, calls := s.calls }

/-- A status is what its lookup finds, and what that leaves is kept. -/
theorem run_status (env : Env) (r : Resource) (s : Session) :
    ((status env r).run s).1 = (statusLookup env r s).1 ∧
      ((status env r).run s).2.calls = (statusLookup env r s).2.calls ∧
      ((status env r).run s).2.storage.state = (statusLookup env r s).2.state := by
  rw [run_status_eq, run_runLookup]
  unfold statusLookup
  rcases (Lookup.lookup (lookupEnv env s.storage) r s.storage.suggestedDepth).run
    { state := s.storage.state, calls := s.calls } with ⟨e | record, w⟩ <;> exact ⟨rfl, rfl, rfl⟩

/-- The same surroundings with a lenient backend. -/
def Env.lenient (env : Env) : Env := { env with backend := env.backend.lenient }

/-- A lenient backend makes no difference for a status. -/
theorem status_lenient (env : Env) (r : Resource) (s : Session) :
    (status env.lenient r).run s = (status env r).run s := by
  have henv : lookupEnv env.lenient s.storage = (lookupEnv env s.storage).lenient := rfl
  rw [run_status_eq, run_status_eq, run_runLookup, run_runLookup, henv, Lookup.lookup_lenient]

/-- **What failures do to a status.** Whatever the backend answers, and however that differs from
request to request:

* a status is an error if and only if one of the requests made for it was cancelled;
* the error is that cancellation, and after the cancelled request, the first of its kind, nothing is
  asked and no record is committed: what is cached was cached before, or was committed before that
  request;
* answers take the place of all other failures but one, with the same outcome;
* and that one, a request for entries that fails in a way of its own, leaves the resource at whose
  level it was made without a status, be it the one asked about or a container above it. -/
theorem status_failed_iff (env : Env) (r : Resource) (s : Session) :
    let asked := (status env r).run s
    let commits := (statusLookup env r s).2.commits
    ((∃ e, asked.1 = .error e) ↔ env.backend.CancelsSince s.calls asked.2.calls) ∧
    (∀ e, asked.1 = .error e → e = .backend .cancelled ∧ ∃ call older,
      asked.2.calls = call :: older ∧ s.calls <:+ older ∧
        env.backend.Fails older call .cancelled ∧ ¬env.backend.CancelsSince s.calls older ∧
        (∀ c ∈ commits, c.asked ≤ older.length) ∧
        ∀ k record, asked.2.storage.state.cache.get? k = some record →
          s.storage.state.cache.get? k = some record ∨ ∃ c ∈ commits, c.record = record) ∧
    (status env.lenient r).run s = asked ∧
    ∀ k p depth w w' failure, k.parent? = some p →
      (lookupEnv env s.storage).isAccessible k →
      (Lookup.loadSubtree (lookupEnv env s.storage)
        (Lookup.lookup (lookupEnv env s.storage) p .one) k p depth).run w =
          (.error (.backend failure), w') → failure ≠ .cancelled →
        (Lookup.reload (lookupEnv env s.storage) k depth).run w = (.ok (Record.invalid k), w') ∧
          ∃ reason path below options older, failure = .failed reason ∧ options.ignored ∧
            w'.calls = .status path below options :: older ∧
            env.backend.Fails older (.status path below options) failure := by
  intro asked commits
  obtain ⟨hresult, hcalls, hstate⟩ := run_status env r s
  let e := lookupEnv env s.storage
  let start : Lookup.World := { state := s.storage.state, calls := s.calls }
  -- Both are about whole runs: where a run stops, and what its steps have committed until then.
  have hstops : Lookup.Stops e.backend Lookup.Cancelled
      (Lookup.lookup e r s.storage.suggestedDepth) := Lookup.stops_lookup r _
  have hmoves : Moves (Lookup.Step e) (Lookup.lookup e r s.storage.suggestedDepth) :=
    Lookup.moves_lookup r _
  have hends : Lookup.Ends env.backend Lookup.Cancelled start (statusLookup env r s) :=
    hstops start
  have hrecorded : Lookup.Recorded s.storage.state (statusLookup env r s).2 :=
    Lookup.recorded_of_steps (fun _ _ h => .inl h) (hmoves start)
  refine ⟨?_, fun failed hfailed => ?_, status_lenient env r s, ?_⟩
  · rw [hresult, hcalls]
    exact hends.failed_iff
  · rw [hresult] at hfailed
    obtain ⟨call, older, failure, rfl, rfl, hasked, hstart, hfails, hcalm, new, hnew, hbefore⟩ :=
      hends.of_error hfailed
    have hcommits : commits = new := hnew.trans (List.append_nil new)
    refine ⟨rfl, call, older, hcalls.trans hasked, hstart, hfails, hcalm, ?_, ?_⟩
    · rw [hcommits]
      exact hbefore
    · rw [hstate]
      exact hrecorded
  · exact fun k p depth w w' failure hp hk hrun hfailure =>
      Lookup.reload_of_failure hp hk hrun hfailure

/-- A backend that cancels the request for the entries of a project. -/
theorem status_failed_cancelled :
    let env := Checkout.env [] { status := [("wc", .error .cancelled)] }
    let asked := (status env Checkout.project).run Checkout.start
    asked.2.calls = [.status ⟨"wc"⟩ .immediates { unchanged := true, ignored := true }] ∧
      asked.1 = .error (.backend .cancelled) := by
  intro env asked
  have hcalls : asked.2.calls =
      [.status ⟨"wc"⟩ .immediates { unchanged := true, ignored := true }] := by
    unfold asked env
    decide +kernel
  have hfails : env.backend.Fails []
      (.status ⟨"wc"⟩ .immediates { unchanged := true, ignored := true }) .cancelled := rfl
  obtain ⟨hiff, herror, -⟩ := status_failed_iff env Checkout.project Checkout.start
  obtain ⟨e, he⟩ := hiff.2 ⟨_, _, hcalls ▸ List.suffix_rfl, List.nil_suffix, hfails⟩
  obtain ⟨rfl, -⟩ := herror e he
  exact ⟨hcalls, he⟩

end Storage
end StatusCache
