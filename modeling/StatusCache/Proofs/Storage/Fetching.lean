/-
# Fetch jobs of a storage

A lookup leaves jobs, which are pushed to the fetch queue when it has succeeded; so does a job while
it is run. All that requests do to the queue is to push jobs (`Pushes`), and draining it is an
interleaving of pushes with the worker's taking and finishing of jobs (`exists_drainFetches`). So
what is known of stations of fetch jobs holds of the fetch queue of a storage.
-/

import StatusCache.Proofs.Queue.Station
import StatusCache.Proofs.Storage.Reachable
import StatusCache.Storage.Upkeep

open Relation (ReflTransGen)

namespace StatusCache

open Queue

namespace Storage

variable {env : Env} {s s' s'' : Session} {q : Queue FetchJob} {job : FetchJob}

/-- All that happens to the fetch queue is that jobs are pushed. -/
def Pushes (s s' : Session) : Prop :=
  ∃ jobs : List FetchJob, s'.storage.fetchQueue = jobs.foldl push s.storage.fetchQueue

/-- If all steps push jobs, the whole run does. -/
theorem pushes_of_steps (h : ReflTransGen Pushes s s') : Pushes s s' := by
  induction h with
  | refl => exact ⟨[], rfl⟩
  | tail _ hlast ih =>
    obtain ⟨jobs, hjobs⟩ := ih
    obtain ⟨more, hmore⟩ := hlast
    exact ⟨jobs ++ more, by rw [hmore, hjobs, List.foldl_append]⟩

/-- A lookup pushes jobs. -/
theorem moves_pushes_runLookup (load : Lookup.Env → Lookup.Action Record) :
    Moves Pushes (runLookup env load) := by
  intro s
  rw [run_runLookup]
  rcases (load (lookupEnv env s.storage)).run
    { state := s.storage.state, calls := s.calls } with ⟨e | record, w⟩
  · exact .single ⟨[], rfl⟩
  · exact .single ⟨w.jobs, rfl⟩

/-- A job that is run pushes others. -/
theorem pushes_fetch (env : Env) (job : FetchJob) (s : Session) :
    Pushes s ((fetch env job).run s).2 :=
  pushes_of_steps (moves_fetch_of (.of_turns fun load _ => moves_pushes_runLookup load) job s)

/-- With no job pending, draining does nothing. -/
theorem run_drainFetches_of_none (limit : Nat) (htake : s.storage.fetchQueue.take? = none) :
    (drainFetches env limit).run s = (.ok (), s) := by
  cases limit with
  | zero => rfl
  | succ limit =>
    rw [drainFetches, run_bind_ok (run_get s)]
    simp only [htake]
    rfl

/-- A job that is taken is run and finished, whether it fails or not. -/
theorem run_drainFetches_of_some (env : Env) (limit : Nat)
    (htake : s.storage.fetchQueue.take? = some (job, q)) :
    ∃ s', Pushes { s with storage := { s.storage with fetchQueue := q } } s' ∧
      (drainFetches env (limit + 1)).run s = (drainFetches env limit).run
        { s' with storage := { s'.storage with fetchQueue := s'.storage.fetchQueue.finish } } := by
  rw [drainFetches, run_bind_ok (run_get s)]
  simp only [htake]
  rw [run_bind_ok (run_change _ s), run_bind, run_tryCatch]
  have hpushes := pushes_fetch env job
    { s with storage := { s.storage with fetchQueue := q } }
  rcases hfetch : (fetch env job).run
    { s with storage := { s.storage with fetchQueue := q } } with ⟨result | result, s'⟩ <;>
    rw [hfetch] at hpushes <;>
    exact ⟨s', hpushes, rfl⟩

/-- The fetch queue with an idle worker. -/
def fetchStation (s : Session) (log : List (Happening FetchJob)) : Station FetchJob where
  queue := s.storage.fetchQueue
  log := log

/-- To push jobs is to enqueue them in order. -/
theorem run_pushes (station : Station FetchJob) (jobs : List FetchJob) :
    station.run (jobs.map .push) =
      { station with
        queue := jobs.foldl push station.queue
        log := (jobs.map .pushed).reverse ++ station.log } := by
  induction jobs generalizing station with
  | nil => rfl
  | cons job jobs ih =>
    change (station.after (.push job)).run (jobs.map .push) = _
    rw [ih]
    simp [Station.after]

/-- **Draining the fetch queue** is an interleaving of pushes with what its worker does. -/
theorem exists_drainFetches (env : Env) (limit : Nat) (s : Session)
    (log : List (Happening FetchJob)) : ∃ moves log', (fetchStation s log).run moves =
      fetchStation ((drainFetches env limit).run s).2 log' := by
  induction limit generalizing s log with
  | zero => exact ⟨[], log, rfl⟩
  | succ limit ih =>
    cases htake : s.storage.fetchQueue.take? with
    | none => exact ⟨[], log, by rw [run_drainFetches_of_none _ htake]; rfl⟩
    | some taken =>
      obtain ⟨job, q⟩ := taken
      obtain ⟨s', ⟨jobs, hjobs⟩, hrun⟩ := run_drainFetches_of_some env limit htake
      let s'' : Session :=
        { s' with storage := { s'.storage with fetchQueue := s'.storage.fetchQueue.finish } }
      let busy : Station FetchJob := { queue := q, running := some job, log := .taken job :: log }
      obtain ⟨moves, log', hmoves⟩ :=
        ih s'' (.finished job :: ((jobs.map .pushed).reverse ++ busy.log))
      refine ⟨.take :: (jobs.map .push ++ .finish :: moves), log', ?_⟩
      have htaken : (fetchStation s log).after .take = busy := by
        simp [Station.after, fetchStation, htake, busy]
      have hfinished : (busy.run (jobs.map .push)).after .finish =
          fetchStation s'' (.finished job :: ((jobs.map .pushed).reverse ++ busy.log)) := by
        rw [run_pushes]
        simp only [Station.after, fetchStation, s'', hjobs, busy]
      calc
        (fetchStation s log).run (.take :: (jobs.map .push ++ .finish :: moves))
          = ((fetchStation s log).after .take).run (jobs.map .push ++ .finish :: moves) := rfl
        _ = ((busy.run (jobs.map .push)).after .finish).run moves := by
            rw [htaken, Station.run_append]
            rfl
        _ = fetchStation ((drainFetches env (limit + 1)).run s).2 log' := by
            rw [hfinished, hmoves, hrun]

end Storage
end StatusCache
