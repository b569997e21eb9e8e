/-
# Notices of a storage

The `fire_` functions of `StatusStorage`, `add_location` and `forget_location`; sections 4.5 and 4.6
of the svncache specification.

Resource and project events are queued if anybody is to hear of them; repository and property
events are delivered at once, and so is the news of a location that is registered or forgotten.
-/

import StatusCache.Storage.Basic

namespace StatusCache
namespace Storage

/-- Tells listeners of something, one after the other. -/
def notify (names : List String) (notice : Notice) : Action Unit :=
  modify fun s => { s with notices := s.notices ++ names.map fun name => (name, notice) }

/-- Queues an event, if anybody is to hear of it. -/
def fire (e : Event) : Action Unit :=
  change fun s =>
    if s.listeners.wants e then { s with eventQueue := s.eventQueue.push e } else s

/-- Tells the listeners of a repository event, which never waits in the queue. -/
def fireRepository (e : RepositoryEvent) : Action Unit := do
  notify (← get).storage.listeners.repositories (.repository e)

/-- Tells the listeners of a property event, which never waits in the queue. -/
def fireProperty (e : PropertyEvent) : Action Unit := do
  notify (← get).storage.listeners.properties (.property e)

/-- Registers a location, in place of one with the same identifier. -/
def addLocation (l : Location) : Action Unit := do
  let isKnown := (← get).storage.locations.contains l.id
  change fun s => { s with locations := s.locations.insert l.id l }
  fireRepository { location := l, action := if isKnown then .changed else .added }

/-- Drops a location with its wrappers, and returns it. -/
def forgetLocation (id : String) : Action (Option Location) := do
  let known := (← get).storage.locations.get? id
  change fun s => { s with locations := s.locations.erase id }
  changeState fun s => { s with externals := s.externals.forget id }
  if let some l := known then fireRepository { location := l, action := .removed }
  return known

end Storage
end StatusCache
