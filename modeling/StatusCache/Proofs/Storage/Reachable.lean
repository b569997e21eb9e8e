/-
# The sessions of a storage

A storage is asked for statuses and children, runs fetch jobs and is told to refresh. Backend, host
and disk may be different ones at every request. Whatever is asked for, a request takes the steps of
lookups (`Storage.Step`) or refreshes (`Storage.Effect`), and its cache stays coherent
(`Reachable.coherent`).
-/

import StatusCache.Proofs.Cache.Invalidate
import StatusCache.Proofs.Lookup.Steps
import StatusCache.Storage.Statuses

open Relation (ReflTransGen)

namespace StatusCache

namespace Storage

variable {env : Env} {s s' : Session}

/-- The session after a lookup that ends in a world. -/
def Session.after (s : Session) (w : Lookup.World) : Session :=
  { s with storage := { s.storage with state := w.state }, calls := w.calls }

/-- A change of the storage changes it. -/
theorem run_change (f : Storage → Storage) (s : Session) :
    (change f).run s = (.ok (), { s with storage := f s.storage }) := rfl

/-- The single steps of a request that looks something up. -/
inductive Step (env : Env) : Session → Session → Prop
  | look (s : Session) {w w' : Lookup.World} (hstate : w.state = s.storage.state)
      (hcalls : w.calls = s.calls) (h : Lookup.Step (lookupEnv env s.storage) w w') :
      Step env s (s.after w')
  | queue (s : Session) (q : Queue FetchJob) :
      Step env s { s with storage := { s.storage with fetchQueue := q } }

/-- The single effects of a request. -/
inductive Effect (env : Env) : Session → Session → Prop
  | step {s s' : Session} (h : Step env s s') : Effect env s s'
  | refresh (s : Session) (rs : List Resource) (depth : Depth) :
      Effect env s ((Storage.refresh rs depth).run s).2

/-- The jobs of a lookup are queued if it succeeds. -/
theorem run_runLookup (load : Lookup.Env → Lookup.Action Record) (s : Session) :
    (runLookup env load).run s =
      match (load (lookupEnv env s.storage)).run
        { state := s.storage.state, calls := s.calls } with
      | (.ok record, w) =>
        (.ok record,
          { s.after w with
            storage :=
              { (s.after w).storage with
                fetchQueue := w.jobs.foldl Queue.push s.storage.fetchQueue } })
      | (.error e, w) => (.error e, s.after w) := by
  rw [runLookup, run_bind, run_get]
  simp only
  rcases (load (lookupEnv env s.storage)).run
    { state := s.storage.state, calls := s.calls } with ⟨e | record, w⟩ <;> rfl

/-- A lookup of a storage that succeeds leaves the state and the requests of its world. -/
theorem exists_of_run_runLookup {load : Lookup.Env → Lookup.Action Record} {record : Record}
    (hrun : (runLookup env load).run s = (.ok record, s')) :
    ∃ w, (load (lookupEnv env s.storage)).run { state := s.storage.state, calls := s.calls } =
      (.ok record, w) ∧ s'.storage.state = w.state ∧ s'.calls = w.calls ∧
        s'.storage.cacheEnabled = s.storage.cacheEnabled := by
  rw [run_runLookup] at hrun
  rcases hload : (load (lookupEnv env s.storage)).run
    { state := s.storage.state, calls := s.calls } with ⟨e | found, w⟩ <;> rw [hload] at hrun
  · cases hrun
  · cases hrun
    exact ⟨w, rfl, rfl, rfl, rfl⟩

/-- A status is a lookup to the depth that the storage suggests. -/
theorem run_status_eq (env : Env) (r : Resource) (s : Session) : (status env r).run s =
    (runLookup env fun e => Lookup.lookup e r s.storage.suggestedDepth).run s := rfl

/-- A lookup of a storage moves a session as the lookup moves its world, and queues the jobs that
this leaves. -/
theorem moves_runLookup_of {T : Lookup.Env → Lookup.World → Lookup.World → Prop}
    {E : Session → Session → Prop} {load : Lookup.Env → Lookup.Action Record}
    (hlook : ∀ (s : Session) (w w' : Lookup.World), w.state = s.storage.state →
      w.calls = s.calls → T (lookupEnv env s.storage) w w' → E s (s.after w'))
    (hqueue : ∀ (s : Session) (q : Queue FetchJob),
      E s { s with storage := { s.storage with fetchQueue := q } })
    (hload : ∀ e, Moves (T e) (load e)) : Moves E (runLookup env load) := by
  intro s
  have hlift : ∀ w, ReflTransGen (T (lookupEnv env s.storage))
      { state := s.storage.state, calls := s.calls } w → ReflTransGen E s (s.after w) := by
    intro w h
    induction h with
    | refl => exact .refl
    | tail _ hlast ih => exact ih.tail (hlook _ _ _ rfl rfl hlast)
  have hlooked := hlift _ (hload (lookupEnv env s.storage)
    { state := s.storage.state, calls := s.calls })
  rw [run_runLookup]
  rcases hrun : (load (lookupEnv env s.storage)).run
    { state := s.storage.state, calls := s.calls } with ⟨e | record, w⟩ <;> rw [hrun] at hlooked
  · exact hlooked
  · exact hlooked.tail (hqueue _ _)

/-- A lookup in the storage consists of steps, if it consists of turns. -/
theorem moves_runLookup {load : Lookup.Env → Lookup.Action Record}
    (hload : ∀ e, Moves (Lookup.Turn e) (load e)) : Moves (Step env) (runLookup env load) :=
  moves_runLookup_of (fun s _ _ hstate hcalls h => .look s hstate hcalls h.step) .queue hload

/-- The lookups of a storage move a session by steps of a relation. -/
structure LookupsMove (env : Env) (E : Session → Session → Prop) : Prop where
  lookup : ∀ r depth, Moves E (runLookup env fun e => Lookup.lookup e r depth)
  reload : ∀ r depth, Moves E (runLookup env fun e => Lookup.reload e r depth)

/-- What moves by turns of lookups moves a session by the steps. -/
theorem LookupsMove.of_turns {E : Session → Session → Prop}
    (h : ∀ load : Lookup.Env → Lookup.Action Record,
      (∀ e, Moves (Lookup.Turn e) (load e)) → Moves E (runLookup env load)) :
    LookupsMove env E where
  lookup r depth := h _ fun _ => Lookup.turns_lookup r depth
  reload r depth := h _ fun _ => Lookup.turns_reload r depth

/-! What is composed of lookups moves a session as its lookups do. -/

section Lookups

variable {E : Session → Session → Prop} (hlookups : LookupsMove env E)

include hlookups

/-- A status request moves as the lookups do. -/
theorem moves_status_of (r : Resource) : Moves E (status env r) :=
  .bind .get fun _ => hlookups.lookup r _

/-- A request for children moves as the lookups do. -/
theorem moves_children_of (container : Resource) : Moves E (children env container) := by
  unfold children
  refine .ite (.pure _) (.bind .get fun s => ?_)
  simp only
  refine .optional (fun _ => hlookups.reload container .one) ?_
  refine .bind .get fun s => ?_
  split <;> exact .pure _

/-- A fetch job moves as the lookups do. -/
theorem moves_fetch_of (job : FetchJob) : Moves E (fetch env job) := by
  unfold fetch
  split
  · exact .pure _
  split
  · exact .pure _
  refine .forM (fun e => ?_) _
  refine .ite ?_ (.pure _)
  split
  · exact .pure _
  refine .ite (.bind (moves_status_of hlookups _) fun record => ?_) (.pure _)
  exact .ite (.bind (moves_children_of hlookups _) fun _ => .pure _) (.pure _)

end Lookups

/-- All lookups of a storage consist of steps. -/
theorem steps_lookups (env : Env) : LookupsMove env (Step env) :=
  .of_turns fun _ => moves_runLookup

/-- A status request consists of steps. -/
theorem moves_status (r : Resource) : Moves (Step env) (status env r) :=
  moves_status_of (steps_lookups env) r

/-- A request for children consists of steps. -/
theorem moves_children (container : Resource) : Moves (Step env) (children env container) :=
  moves_children_of (steps_lookups env) container

/-- A fetch job consists of steps. -/
theorem moves_fetch (job : FetchJob) : Moves (Step env) (fetch env job) :=
  moves_fetch_of (steps_lookups env) job

/-! ### Sessions -/

/-- What a storage can be asked. -/
inductive Request
  | status (r : Resource)
  | children (container : Resource)
  | fetch (job : FetchJob)
  | refresh (rs : List Resource) (depth : Depth)

/-- The session after a request, whether that succeeds or fails. -/
def Request.run (env : Env) (s : Session) : Request → Session
  | status r => ((Storage.status env r).run s).2
  | children container => ((Storage.children env container).run s).2
  | fetch job => ((Storage.fetch env job).run s).2
  | refresh rs depth => ((Storage.refresh rs depth).run s).2

/-- The sessions that requests lead to from a new storage. -/
inductive Reachable : Session → Prop
  | start (config : Config) (now : Int) : Reachable { storage := make config now }
  | request {s : Session} (h : Reachable s) (env : Env) (q : Request) : Reachable (q.run env s)

/-- A request that looks something up. -/
def Request.Looks : Request → Prop
  | refresh .. => False
  | _ => True

/-- A request that looks something up takes the steps of lookups. -/
theorem Request.steps (env : Env) (s : Session) {q : Request} (hq : q.Looks) :
    ReflTransGen (Step env) s (q.run env s) := by
  cases q with
  | status r => exact moves_status r s
  | children container => exact moves_children container s
  | fetch job => exact moves_fetch job s
  | refresh rs depth => exact hq.elim

/-- A request only has these effects. -/
theorem Request.effects (env : Env) (s : Session) (q : Request) :
    ReflTransGen (Effect env) s (q.run env s) := by
  have hlook : q.Looks → ReflTransGen (Effect env) s (q.run env s) := fun hq =>
    (Request.steps env s hq).lift id fun _ _ h => .step h
  cases q with
  | refresh rs depth => exact .single (.refresh s rs depth)
  | status r => exact hlook trivial
  | children container => exact hlook trivial
  | fetch job => exact hlook trivial

/-- **What every effect keeps holds of every session**, if it holds of a new storage. -/
theorem Reachable.invariant {I : Session → Prop}
    (hstart : ∀ config now, I { storage := make config now })
    (hstep : ∀ env s s', Effect env s s' → I s → I s') (h : Reachable s) : I s := by
  induction h with
  | start config now => exact hstart config now
  | @request s _ env q ih =>
    have heffects := q.effects env s
    generalize q.run env s = s' at heffects ⊢
    induction heffects with
    | refl => exact ih
    | tail _ hlast ihs => exact hstep env _ _ hlast ihs

/-! ### The cache of a session -/

/-- A lookup keeps the cache coherent. -/
theorem coherent_of_lookup {e : Lookup.Env} {w w' : Lookup.World} (h : Lookup.Step e w w')
    (hw : w.state.cache.Coherent) : w'.state.cache.Coherent := by
  cases h with
  | ask => exact hw
  | plain => exact hw.put _
  | describe =>
    rw [Lookup.described, Lookup.cache_registered, Lookup.cache_noted]
    exact hw.put _
  | ensure => exact hw.ensureBucket _
  | clear => exact .empty
  | leave => exact hw

/-- A step keeps the cache coherent. -/
theorem coherent_of_step (h : Step env s s') (hs : s.storage.state.cache.Coherent) :
    s'.storage.state.cache.Coherent := by
  cases h with
  | look hstate hcalls hlook => exact coherent_of_lookup hlook (hstate ▸ hs)
  | queue q => exact hs

/-- The refresh of a resource keeps the cache coherent. -/
theorem coherent_refreshOne {state : State} (h : state.cache.Coherent) (depth : Depth)
    (r : Resource) : (refreshOne depth state r).cache.Coherent := by
  have hdrop := h.drop (state.cache.levels depth) r
  unfold refreshOne
  simp only
  split
  · exact hdrop.removeBucket _
  · exact hdrop

/-- A refresh keeps the cache coherent. -/
theorem coherent_refresh {rs : List Resource} {state : State} (h : state.cache.Coherent)
    (depth : Depth) : (rs.foldl (refreshOne depth) state).cache.Coherent := by
  induction rs generalizing state with
  | nil => exact h
  | cons r rs ih => exact ih (coherent_refreshOne h depth r)

/-- **The cache of every session is coherent.** -/
theorem Reachable.coherent (h : Reachable s) : s.storage.state.cache.Coherent := by
  refine h.invariant (I := fun s => s.storage.state.cache.Coherent)
    (fun config now => Cache.Coherent.empty) fun env s s' hstep hs => ?_
  cases hstep with
  | step hstep => exact coherent_of_step hstep hs
  | refresh rs depth => exact coherent_refresh hs depth

end Storage
end StatusCache
