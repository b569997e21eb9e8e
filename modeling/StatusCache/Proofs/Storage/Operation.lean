/-
# Everything a storage does

An operation is anything that a storage can be asked or told (`Operation`); backend, host and disk
may be different ones at every operation. Two operations change the locations that the storage knows.
Any other one leaves them alone, and all that it does to the shared state are the turns of lookups,
refreshes, the forgetting of a project, new wrappers for foreign URLs, and a new window of
observation (`Alters`). `Operation.run_cases` says so. What all of these keep is kept by every
operation (`Operation.state_induction`), and by every run of them (`Session.run_induction`).
-/

import StatusCache.Proofs.Cache.Footprint
import StatusCache.Proofs.Storage.Switched
import StatusCache.Storage.Changes

open Relation (ReflTransGen)

namespace StatusCache

namespace Storage

variable {env : Env} {s s' : Session}

/-! ### Operations -/

/-- Surroundings in which every resource is there, and the backend knows nothing of any. -/
def Env.silent : Env where
  backend := { status := fun _ _ _ _ => .ok [], info := fun _ _ _ => .ok [] }
  host :=
    { binding? := fun _ => some default
      isAccessible := fun _ => true
      isPresent := fun _ => true
      location? := fun _ => none
      member? := fun _ _ => none
      members := fun _ => []
      resourceAt? := fun _ _ => none
      isSymlink := fun _ => false
      isLinked := fun _ => false
      isInternal := fun _ => false
      isIgnored := fun _ => false
      isBuildOutput := fun _ => false
      height := 0 }
  disk := {}
  now := 0

/-- What a storage can be asked or told. -/
inductive Operation
  | lookup (r : Resource) (depth : Depth)
  | reload (r : Resource) (depth : Depth)
  | status (r : Resource)
  | cachedStatus (r : Resource)
  | accessibleStatus (r : Resource)
  | statusOfUrl (project : Resource) (url : String) (kind : Resource.Kind)
  | children (container : Resource)
  | fetch (job : FetchJob)
  | drain (limit : Nat)
  | refresh (rs : List Resource) (depth : Depth)
  | checkDatabases
  | resetMonitor
  | forgetProject (project : Resource)
  | enableCache (isEnabled : Bool)
  | node (r : Resource)
  | nodeAtUrl (l : Location) (url : String) (isFile : Bool)
  | resolveUrl (l : Location) (url : String) (peg revision : Option Revision)
  | nodeOfBytes (bytes : List UInt8)
  | changeOfBytes (bytes : List UInt8)
  | addLocation (l : Location)
  | forgetLocation (id : String)
  | listen (channel : Listeners.Channel) (name : String)
  | unlisten (channel : Listeners.Channel) (name : String)
  | fire (e : Event)
  | fireRepository (e : RepositoryEvent)
  | fireProperty (e : PropertyEvent)
  | shutdown

/-- The session after an operation, whether that succeeds or fails. -/
def Operation.run (env : Env) (s : Session) : Operation → Session
  | lookup r depth => ((runLookup env fun e => Lookup.lookup e r depth).run s).2
  | reload r depth => ((runLookup env fun e => Lookup.reload e r depth).run s).2
  | status r => ((Storage.status env r).run s).2
  | cachedStatus r => ((Storage.cachedStatus env r).run s).2
  | accessibleStatus r => ((Storage.accessibleStatus env r).run s).2
  | statusOfUrl project url kind => ((Storage.statusOfUrl env project url kind).run s).2
  | children container => ((Storage.children env container).run s).2
  | fetch job => ((Storage.fetch env job).run s).2
  | drain limit => ((Storage.drain env limit).run s).2
  | refresh rs depth => ((Storage.refresh rs depth).run s).2
  | checkDatabases => ((Storage.checkDatabases env).run s).2
  | resetMonitor => ((Storage.resetMonitor env).run s).2
  | forgetProject project => ((Storage.forgetProject project).run s).2
  | enableCache isEnabled => ((change fun st => { st with cacheEnabled := isEnabled }).run s).2
  | node r => ((Storage.node env r).run s).2
  | nodeAtUrl l url isFile => ((Storage.nodeAtUrl l url isFile).run s).2
  | resolveUrl l url peg revision => ((Storage.resolveUrl env l url peg revision).run s).2
  | nodeOfBytes bytes => ((Storage.nodeOfBytes bytes).run s).2
  | changeOfBytes bytes => ((Storage.changeOfBytes env bytes).run s).2
  | addLocation l => ((Storage.addLocation l).run s).2
  | forgetLocation id => ((Storage.forgetLocation id).run s).2
  | listen channel name =>
    ((change fun st => { st with listeners := st.listeners.add channel name }).run s).2
  | unlisten channel name =>
    ((change fun st => { st with listeners := st.listeners.remove channel name }).run s).2
  | fire e => ((Storage.fire e).run s).2
  | fireRepository e => ((Storage.fireRepository e).run s).2
  | fireProperty e => ((Storage.fireProperty e).run s).2
  | shutdown => (Storage.shutdown.run s).2

/-- The session after operations, each with its own surroundings. -/
def Session.run (s : Session) (ops : List (Env × Operation)) : Session :=
  ops.foldl (fun s (env, op) => op.run env s) s

/-- Operations one after the other are one run. -/
theorem Session.run_append (s : Session) (ops more : List (Env × Operation)) :
    s.run (ops ++ more) = (s.run ops).run more := List.foldl_append

/-! ### What operations do to the shared state -/

/-- The single changes of the shared state. -/
inductive Alters (env : Env) : State → State → Prop
  | look {e : Lookup.Env} {w w' : Lookup.World} (hhost : e.host = env.host)
      (h : Lookup.Turn e w w') : Alters env w.state w'.state
  | refresh (st : State) (rs : List Resource) (depth : Depth) :
      Alters env st (rs.foldl (refreshOne depth) st)
  | forget (st : State) (project : Resource) : Alters env st (forgotten project st)
  | wrap (st : State) (l : Location) (url : String) (isFile : Bool) :
      Alters env st { st with externals := (st.externals.wrap l url isFile).2 }
  | observe (st : State) (m : Monitor) : Alters env st { st with monitor := m }

/-- The single steps of an operation that leaves the locations alone. -/
inductive Act (env : Env) : Session → Session → Prop
  | alter {s s' : Session} (hlocations : s'.storage.locations = s.storage.locations)
      (h : Alters env s.storage.state s'.storage.state) : Act env s s'
  | pass {s s' : Session} (hlocations : s'.storage.locations = s.storage.locations)
      (hstate : s'.storage.state = s.storage.state) : Act env s s'

/-- Acts leave the locations alone, and change the shared state bit by bit. -/
theorem alters_of_acts (h : ReflTransGen (Act env) s s') :
    s'.storage.locations = s.storage.locations ∧
      ReflTransGen (Alters env) s.storage.state s'.storage.state := by
  induction h with
  | refl => exact ⟨rfl, .refl⟩
  | tail _ hlast ih =>
    obtain ⟨hlocations, hstate⟩ := ih
    cases hlast with
    | alter hsame halters => exact ⟨hsame.trans hlocations, hstate.tail halters⟩
    | pass hsame hkept => exact ⟨hsame.trans hlocations, hkept ▸ hstate⟩

/-- A lookup consists of acts, if it consists of turns. -/
theorem moves_act_runLookup {load : Lookup.Env → Lookup.Action Record}
    (hload : ∀ e, Moves (Lookup.Turn e) (load e)) : Moves (Act env) (runLookup env load) := by
  refine moves_runLookup_of (fun s w w' hstate _ hturn => .alter rfl ?_) (fun s q => .pass rfl rfl)
    hload
  rw [← hstate]
  exact .look rfl hturn

/-- All lookups of a storage consist of acts. -/
theorem acts_lookups (env : Env) : LookupsMove env (Act env) :=
  .of_turns fun _ => moves_act_runLookup

/-- A change of anything but the locations and the shared state. -/
theorem moves_pass {f : Storage → Storage} (hlocations : ∀ st, (f st).locations = st.locations)
    (hstate : ∀ st, (f st).state = st.state) : Moves (Act env) (change f) :=
  .modify fun s => .pass (hlocations s.storage) (hstate s.storage)

/-- To notify is an act. -/
theorem moves_notify (names : List String) (notice : Notice) :
    Moves (Act env) (notify names notice) :=
  .modify fun _ => .pass rfl rfl

/-- To fire an event is an act. -/
theorem moves_fire (e : Event) : Moves (Act env) (fire e) :=
  moves_pass (fun st => by split <;> rfl) fun st => by split <;> rfl

/-- To wrap a location is an act. -/
theorem moves_wrap (l : Location) (url : String) (isFile : Bool) :
    Moves (Act env) (wrap l url isFile) :=
  fun s => .single (.alter rfl (.wrap s.storage.state l url isFile))

/-- To refresh is an act. -/
theorem moves_refresh (rs : List Resource) (depth : Depth) : Moves (Act env) (refresh rs depth) :=
  fun s => .single (.alter rfl (.refresh s.storage.state _ depth))

/-- To ask for a cached status consists of acts. -/
theorem moves_cachedStatus (r : Resource) : Moves (Act env) (cachedStatus env r) := by
  refine .bind .get fun s => ?_
  refine .ite (moves_status_of (acts_lookups env) r) (.ite (.pure _) ?_)
  split <;> exact .pure _

/-- To ask for an accessible status consists of acts. -/
theorem moves_accessibleStatus (r : Resource) : Moves (Act env) (accessibleStatus env r) :=
  .bind (moves_status_of (acts_lookups env) r) fun _ => .ite (.throw _) (.pure _)

/-- To ask for a node consists of acts. -/
theorem moves_node (r : Resource) : Moves (Act env) (node env r) := by
  unfold node
  split
  · exact .throw _
  split
  · exact .throw _
  refine .ite (.pure _) (.bind .get fun s => ?_)
  split
  · exact .bind (moves_wrap _ _ _) fun _ => .pure _
  · exact .pure _

/-- To ask for the status of a URL consists of acts. -/
theorem moves_statusOfUrl (project : Resource) (url : String) (kind : Resource.Kind) :
    Moves (Act env) (statusOfUrl env project url kind) := by
  refine .bind .get fun s => ?_
  split
  · exact moves_status_of (acts_lookups env) _
  · refine .bind (moves_node project) fun n => ?_
    exact .ite (moves_status_of (acts_lookups env) _) (.pure _)

/-- To resolve a URL consists of acts. -/
theorem moves_resolveUrl (l : Location) (url : String) (peg revision : Option Revision) :
    Moves (Act env) (resolveUrl env l url peg revision) := by
  refine .bind (moves_wrap _ _ _) fun l s => ?_
  rw [run_bind_ok (run_get s)]
  refine MovesFrom.bind (.single (.pass rfl rfl)) fun _ => ?_
  split
  · exact .throw _
  split
  · exact .pure _
  split <;> exact .pure _

/-- To read a node consists of acts. -/
theorem moves_nodeOfBytes (bytes : List UInt8) : Moves (Act env) (nodeOfBytes bytes) := by
  unfold nodeOfBytes
  split
  · exact .throw _
  refine .bind .get fun s => ?_
  split
  · exact .pure _
  · exact .bind (moves_wrap _ _ _) fun _ => .pure _

/-- To read a change consists of acts. -/
theorem moves_changeOfBytes (bytes : List UInt8) : Moves (Act env) (changeOfBytes env bytes) := by
  unfold changeOfBytes
  split
  · exact .throw _
  · exact .pure _
  · refine .bind (.tryCatch (moves_nodeOfBytes _) fun e => ?_) fun _ => .pure _
    split
    · exact .pure _
    · exact .throw _

/-- To work off the fetch jobs consists of acts. -/
theorem moves_drainFetches (limit : Nat) : Moves (Act env) (drainFetches env limit) := by
  induction limit with
  | zero => exact .pure _
  | succ limit ih =>
    refine .bind .get fun s => ?_
    split
    · exact .pure _
    refine .bind (moves_pass (fun _ => rfl) fun _ => rfl) fun _ => ?_
    refine .bind (.tryCatch (moves_fetch_of (acts_lookups env) _) fun _ => .pure _)
      fun _ => ?_
    exact .bind (moves_pass (fun _ => rfl) fun _ => rfl) fun _ => ih

/-- To work off the events consists of acts. -/
theorem moves_drainEvents (limit : Nat) : Moves (Act env) (drainEvents limit) := by
  induction limit with
  | zero => exact .pure _
  | succ limit ih =>
    refine .bind .get fun s => ?_
    simp only
    split
    · exact .pure _
    refine .bind (moves_pass (fun _ => rfl) fun _ => rfl) fun _ => ?_
    refine .bind (moves_notify _ _) fun _ => ?_
    exact .bind (moves_pass (fun _ => rfl) fun _ => rfl) fun _ => ih

/-- To check the databases consists of acts. -/
theorem moves_checkDatabases : Moves (Act env) (checkDatabases env) := by
  refine .bind .get fun s => ?_
  simp only
  refine .ite (.bind (moves_refresh _ _) fun _ => .bind (moves_fire _) fun _ => ?_) ?_
  all_goals exact .bind (fun s => .single (.alter rfl (.observe _ _))) fun _ => .pure _

/-- A location is dropped with its wrappers. -/
theorem storage_forgetLocation (id : String) (s : Session) :
    ((forgetLocation id).run s).2.storage = { s.storage with
      locations := s.storage.locations.erase id
      state := { s.storage.state with externals := s.storage.state.externals.forget id } } := by
  rw [forgetLocation, run_bind_ok (run_get s), run_bind_ok (run_change _ _),
    run_bind_ok (show (changeState _).run _ = _ from run_change _ _)]
  split <;> rfl

/-- Whether an operation leaves the locations alone. -/
def Operation.KeepsLocations : Operation → Prop
  | addLocation _ | forgetLocation _ => False
  | _ => True

/-- An operation that leaves the locations alone is a sequence of acts. -/
theorem Operation.acts (env : Env) (s : Session) {op : Operation} (h : op.KeepsLocations) :
    ReflTransGen (Act env) s (op.run env s) := by
  have hlookups := acts_lookups env
  cases op with
  | addLocation l => exact h.elim
  | forgetLocation id => exact h.elim
  | lookup r depth => exact hlookups.lookup r depth s
  | reload r depth => exact hlookups.reload r depth s
  | status r => exact moves_status_of hlookups r s
  | cachedStatus r => exact moves_cachedStatus r s
  | accessibleStatus r => exact moves_accessibleStatus r s
  | statusOfUrl project url kind => exact moves_statusOfUrl project url kind s
  | children container => exact moves_children_of hlookups container s
  | fetch job => exact moves_fetch_of hlookups job s
  | drain limit => exact Moves.bind (moves_drainFetches limit) (fun _ => moves_drainEvents limit) s
  | refresh rs depth => exact moves_refresh rs depth s
  | checkDatabases => exact moves_checkDatabases s
  | resetMonitor => exact .single (.alter rfl (.observe _ _))
  | forgetProject project => exact .single (.alter rfl (.forget _ project))
  | enableCache isEnabled => exact .single (.pass rfl rfl)
  | node r => exact moves_node r s
  | nodeAtUrl l url isFile => exact Moves.bind (moves_wrap l url isFile) (fun _ => .pure _) s
  | resolveUrl l url peg revision => exact moves_resolveUrl l url peg revision s
  | nodeOfBytes bytes => exact moves_nodeOfBytes bytes s
  | changeOfBytes bytes => exact moves_changeOfBytes bytes s
  | listen channel name => exact .single (.pass rfl rfl)
  | unlisten channel name => exact .single (.pass rfl rfl)
  | fire e => exact moves_fire e s
  | fireRepository e => exact Moves.bind .get (fun _ => moves_notify _ _) s
  | fireProperty e => exact Moves.bind .get (fun _ => moves_notify _ _) s
  | shutdown => exact .single (.pass rfl rfl)

/-- **What an operation can do**: it registers a location, it drops one with its wrappers, or it
leaves the locations alone and changes the shared state bit by bit. -/
theorem Operation.run_cases (env : Env) (s : Session) (op : Operation) :
    (∃ l, op = .addLocation l ∧
      (op.run env s).storage.locations = s.storage.locations.insert l.id l ∧
      (op.run env s).storage.state = s.storage.state) ∨
    (∃ id, op = .forgetLocation id ∧
      (op.run env s).storage.locations = s.storage.locations.erase id ∧
      (op.run env s).storage.state =
        { s.storage.state with externals := s.storage.state.externals.forget id }) ∨
    ((op.run env s).storage.locations = s.storage.locations ∧
      ReflTransGen (Alters env) s.storage.state (op.run env s).storage.state) := by
  have hkeeps : op.KeepsLocations → ReflTransGen (Act env) s (op.run env s) := op.acts env s
  cases op with
  | addLocation l => exact .inl ⟨l, rfl, rfl, rfl⟩
  | forgetLocation id =>
    rw [run, storage_forgetLocation]
    exact .inr (.inl ⟨id, rfl, rfl, rfl⟩)
  | _ => exact .inr (.inr (alters_of_acts (hkeeps trivial)))

/-- What every single change of the shared state keeps, any number of them keep. -/
theorem alters_induction {I : State → Prop} {st st' : State}
    (halters : ∀ st st', Alters env st st' → I st → I st')
    (h : ReflTransGen (Alters env) st st') (hst : I st) : I st' := by
  induction h with
  | refl => exact hst
  | tail _ hlast ih => exact halters _ _ hlast ih

/-- What every single change of the shared state keeps, an operation keeps, if it outlives the
dropping of wrappers. -/
theorem Operation.state_induction {I : State → Prop}
    (halters : ∀ st st', Alters env st st' → I st → I st')
    (hdrop : ∀ st id, I st → I { st with externals := st.externals.forget id })
    (op : Operation) (hs : I s.storage.state) : I (op.run env s).storage.state := by
  rcases op.run_cases env s with ⟨l, -, -, hstate⟩ | ⟨id, -, -, hstate⟩ | ⟨-, hchanges⟩
  · rw [hstate]
    exact hs
  · rw [hstate]
    exact hdrop _ id hs
  · exact alters_induction halters hchanges hs

/-! ### Runs -/

/-- What every operation of a run keeps, the run keeps. -/
theorem Session.run_induction {I : Session → Prop} {ops : List (Env × Operation)}
    (hstep : ∀ env op s, (env, op) ∈ ops → I s → I (op.run env s)) (hs : I s) :
    I (s.run ops) := by
  induction ops generalizing s with
  | nil => exact hs
  | cons step ops ih =>
    exact ih (fun env op s hmem => hstep env op s (List.mem_cons_of_mem _ hmem))
      (hstep step.1 step.2 s List.mem_cons_self hs)

/-! ### Records -/

/-- A turn keeps records under their own resources. -/
theorem keyed_of_turn {e : Lookup.Env} {w w' : Lookup.World} (h : Lookup.Turn e w w')
    (hw : w.state.cache.Keyed) : w'.state.cache.Keyed := by
  cases h with
  | ask => exact hw
  | ignore => exact hw.put _
  | scan => exact hw.put _
  | describe =>
    rw [Lookup.described, Lookup.cache_registered, Lookup.cache_noted]
    exact hw.put _
  | ensure => exact fun r record hget => hw r record (by simpa using hget)
  | clear => exact fun r record hget => by simp at hget
  | leave => exact hw

/-- A change of the state keeps records under their own resources. -/
theorem keyed_of_alters {st st' : State} (h : Alters env st st') (hst : st.cache.Keyed) :
    st'.cache.Keyed := by
  have hshrinks : Shrinks st st' → st'.cache.Keyed := fun hs r record hget =>
    hst r record (hs.records hget)
  cases h with
  | look _ hturn => exact keyed_of_turn hturn hst
  | refresh _ rs depth => exact hshrinks (shrinks_refresh rs depth st)
  | forget _ project => exact hshrinks (shrinks_forgotten project st)
  | wrap => exact hst
  | observe => exact hst

/-- **Every cached record is that of the resource it is found under**, whatever a storage has been
asked or told. -/
theorem keyed_run (config : Config) (now : Int) (ops : List (Env × Operation)) :
    (({ storage := make config now } : Session).run ops).storage.state.cache.Keyed :=
  Session.run_induction (I := fun s => s.storage.state.cache.Keyed)
    (fun _ op _ _ hs => op.state_induction (I := fun st => st.cache.Keyed)
      (fun _ _ => keyed_of_alters) (fun _ _ hst => hst) hs)
    fun r record hget => by simp [make] at hget

/-! ### Buckets -/

/-- A turn keeps the buckets tied. -/
theorem tied_of_turn {e : Lookup.Env} {w w' : Lookup.World} (h : Lookup.Turn e w w')
    (hw : w.state.cache.Tied) : w'.state.cache.Tied := by
  cases h with
  | ask => exact hw
  | ignore => exact hw.put _
  | scan => exact hw.put _
  | describe =>
    rw [Lookup.described, Lookup.cache_registered, Lookup.cache_noted]
    exact hw.put _
  | ensure => exact hw.ensureBucket _
  | clear => exact .empty
  | leave => exact hw

/-- A refresh keeps the buckets that are left tied. -/
theorem tied_refreshOne {st : State} (h : st.cache.Tied) (depth : Depth) (r : Resource) :
    (refreshOne depth st r).cache.Tied := by
  have hdrop := h.invalidate r depth
  unfold refreshOne
  simp only
  split
  · exact hdrop.removeBucket _
  · exact hdrop

/-- A change of the state keeps the buckets tied. -/
theorem tied_of_alters {st st' : State} (h : Alters env st st') (hst : st.cache.Tied) :
    st'.cache.Tied := by
  cases h with
  | look _ hturn => exact tied_of_turn hturn hst
  | refresh _ rs depth =>
    induction rs generalizing st with
    | nil => exact hst
    | cons r rs ih => exact ih (tied_refreshOne hst depth r)
  | forget _ project => exact hst.forgetProject project
  | wrap => exact hst
  | observe => exact hst

/-- Whatever a storage has been asked or told, its buckets list children of their containers. -/
theorem tied_run (config : Config) (now : Int) (ops : List (Env × Operation)) :
    (({ storage := make config now } : Session).run ops).storage.state.cache.Tied :=
  Session.run_induction (I := fun s => s.storage.state.cache.Tied)
    (fun _ op _ _ hs => op.state_induction (I := fun st => st.cache.Tied)
      (fun _ _ => tied_of_alters) (fun _ _ hst => hst) hs) .empty

end Storage
end StatusCache
