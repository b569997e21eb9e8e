/-
# The status storage

`StatusStorage`, section 4.6 of the svncache specification.

A storage owns the shared state of all lookups, the repository locations it knows, the listeners,
and two queues. Lookups run at once and leave deeper work to the fetch queue; resource and project
events wait in the event queue. Both queues run when they are drained.
-/

import StatusCache.Config.Basic
import StatusCache.Event
import StatusCache.Lookup.Basic

namespace StatusCache

/-- What a storage keeps. -/
structure Storage where
  verifyRoots : Bool
  metadata : String
  cacheEnabled : Bool
  /-- Depth of a lookup that finds nothing cached; set by the last refresh. -/
  suggestedDepth : Depth := .one
  state : State
  locations : Table String Location := {}
  listeners : Listeners := {}
  fetchQueue : Queue FetchJob
  eventQueue : Queue Event

namespace Storage

/-- A storage with these settings, started at a time. -/
def make (config : Config) (now : Int) : Storage where
  verifyRoots := config.cache.verifyExternalRoots
  metadata := config.workspace.metadataDir
  cacheEnabled := config.cache.enabled
  state := { monitor := { lastCheck := now } }
  fetchQueue := { name := config.cache.fetchQueueName }
  eventQueue := { name := config.cache.eventQueueName }

/-- What a listener is told. -/
inductive Notice
  | event (e : Event)
  | repository (e : RepositoryEvent)
  | property (e : PropertyEvent)
deriving DecidableEq, Repr

/-- The surroundings of an operation. -/
structure Env where
  backend : Backend
  host : Host
  disk : Disk
  /-- Milliseconds since the epoch. -/
  now : Int

/-- A storage in use: what it keeps, the requests made so far, the newest first, and the notices
delivered so far, the oldest first, each with its listener. -/
structure Session where
  storage : Storage
  calls : List Backend.Call := []
  notices : List (String × Notice) := []

/-- An operation of a storage. One that fails keeps what it has changed so far. -/
abbrev Action (α : Type) := ExceptT Error (StateM Session) α

variable (env : Env)

/-- Changes the storage. -/
def change (f : Storage → Storage) : Action Unit :=
  modify fun s => { s with storage := f s.storage }

/-- Changes the shared state. -/
def changeState (f : State → State) : Action Unit :=
  change fun s => { s with state := f s.state }

/-- What lookups of a storage may ask. -/
def lookupEnv (s : Storage) : Lookup.Env where
  backend := env.backend
  host := env.host
  disk := env.disk
  options :=
    { cacheEnabled := s.cacheEnabled, verifyRoots := s.verifyRoots, metadata := s.metadata }

/-- Runs a lookup. The jobs it leaves are queued if it succeeds. -/
def runLookup (load : Lookup.Env → Lookup.Action Record) : Action Record := do
  let s ← get
  let (result, w) :=
    (load (lookupEnv env s.storage)).run { state := s.storage.state, calls := s.calls }
  set { s with storage := { s.storage with state := w.state }, calls := w.calls }
  match result with
  | .ok record =>
    change fun s => { s with fetchQueue := w.jobs.foldl Queue.push s.fetchQueue }
    return record
  | .error e => throw e

end Storage
end StatusCache
