/-
# Notifications

`StateEvent` with its `can_skip`, `can_merge` and `merge`, the four listeners, `ListenerList` and
`Listeners`; section 4.5 of the svncache specification.

Resource and project events are queued and coalesce there; repository and revision property events
are delivered at once. Each kind has its own list of listeners.
-/

import StatusCache.Location
import StatusCache.Queue
import StatusCache.Resource

namespace StatusCache

/-- What a resource event says about its resources. -/
inductive ResourceEvent.Kind
  /-- Their statuses changed. -/
  | changedNodes
  /-- Only what is above them needs to be shown again. -/
  | pathNodes
deriving DecidableEq, Repr, Inhabited

/-- Resources whose status changed, down to a depth. -/
structure ResourceEvent where
  resources : List Resource
  depth : Depth
  kind : ResourceEvent.Kind := .changedNodes
deriving DecidableEq, Repr, Inhabited

/-- Whether the event is about a resource. -/
def ResourceEvent.covers (e : ResourceEvent) (r : Resource) : Bool :=
  e.resources.any fun x =>
    x = r ||
      match e.depth with
      | .zero => false
      | .one => r.parent? = some x
      | .infinite => x.isAncestorOf r

/-- What happened to a project. -/
inductive ProjectEvent.State
  | opened
  | closed
  | deleted
  | shared
  | disconnected
deriving DecidableEq, Repr, Inhabited

/-- A change of the state of a project. -/
structure ProjectEvent where
  project : Resource
  state : ProjectEvent.State
deriving DecidableEq, Repr, Inhabited

/-- What happened to a repository location. -/
inductive RepositoryEvent.Action
  | added
  | removed
  | changed
deriving DecidableEq, Repr, Inhabited

/-- A change in the registry of locations. -/
structure RepositoryEvent where
  location : Location
  action : RepositoryEvent.Action
deriving DecidableEq, Repr, Inhabited

/-- A revision property got a value, or was deleted. -/
structure PropertyEvent where
  location : Location
  revision : Int
  name : String
  value : Option String
deriving DecidableEq, Repr, Inhabited

/-- An event that is queued. -/
inductive Event
  | resources (e : ResourceEvent)
  | project (e : ProjectEvent)
deriving DecidableEq, Repr, Inhabited

/-- The resources of a list, and behind them those of another that are new. -/
def addNew (rs more : List Resource) : List Resource :=
  more.foldl (fun all r => if r ∈ all then all else all ++ [r]) rs

/-- Resource events of one kind and depth fold together; any event equal to a pending one may be
dropped. -/
instance : Coalesce Event where
  same a b := a = b
  canSkip _ := true
  canMerge
    | .resources a, .resources b => a.kind = b.kind ∧ a.depth = b.depth
    | _, _ => false
  merge
    | .resources a, .resources b =>
      .resources { a with resources := addNew a.resources b.resources }
    | a, _ => a

/-- The names of the listeners of each kind of event, in the order in which they were added. -/
structure Listeners where
  resources : List String := []
  projects : List String := []
  repositories : List String := []
  properties : List String := []
deriving DecidableEq, Repr, Inhabited

namespace Listeners

/-- A kind of event that listeners are registered for. -/
inductive Channel
  | resources
  | projects
  | repositories
  | properties
deriving DecidableEq, Repr, Inhabited

/-- The listeners of one kind of event. -/
def on (l : Listeners) : Channel → List String
  | .resources => l.resources
  | .projects => l.projects
  | .repositories => l.repositories
  | .properties => l.properties

/-- Gives one kind of event other listeners. -/
def set (l : Listeners) (channel : Channel) (names : List String) : Listeners :=
  match channel with
  | .resources => { l with resources := names }
  | .projects => { l with projects := names }
  | .repositories => { l with repositories := names }
  | .properties => { l with properties := names }

/-- Setting the listeners of one channel changes that channel alone. -/
theorem on_set (l : Listeners) (c c' : Channel) (names : List String) :
    (l.set c names).on c' = if c' = c then names else l.on c' := by
  cases c <;> cases c' <;> rfl

/-- Registers a listener behind the others, unless it is registered already. -/
def add (l : Listeners) (channel : Channel) (name : String) : Listeners :=
  if name ∈ l.on channel then l else l.set channel (l.on channel ++ [name])

/-- Takes a listener off one kind of event. -/
def remove (l : Listeners) (channel : Channel) (name : String) : Listeners :=
  l.set channel ((l.on channel).filter (· ≠ name))

/-- Whether anybody is to hear of an event. -/
def wants (l : Listeners) : Event → Bool
  | .resources e => e.resources ≠ [] && l.resources ≠ []
  | .project _ => l.projects ≠ []

/-- The listeners of an event. -/
def of (l : Listeners) : Event → List String
  | .resources _ => l.resources
  | .project _ => l.projects

/-- Delivers to the listeners one after the other, until `isCancelled` holds of the state. Those who
are on the list at the start are served, whatever a delivery does to it. -/
def deliver {σ : Type} (isCancelled : σ → Bool) (send : String → σ → σ) : List String → σ → σ
  | [], s => s
  | name :: names, s =>
    if isCancelled s then s else deliver isCancelled send names (send name s)

end Listeners
end StatusCache
