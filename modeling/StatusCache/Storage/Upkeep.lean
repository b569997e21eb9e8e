/-
# Keeping a storage up to date

`check_for_external_changes`, `forget_project` and the workers of the two queues of `StatusStorage`;
sections 4.4 and 4.6 of the svncache specification.

Databases that other programs have written make the statuses of their projects stale. Queued work
runs when the queues are drained, one item at a time; deeper lookups may queue more of it.
-/

import StatusCache.Storage.Notices
import StatusCache.Storage.Statuses

namespace StatusCache
namespace Storage

variable (env : Env)

/-- Drops all that is kept about a project. -/
def forgetProject (project : Resource) : Action Unit :=
  changeState fun s =>
    { s with
      cache := s.cache.forgetProject project
      switched := s.switched.forgetProject project
      monitor := s.monitor.forget project }

/-- Refreshes the projects whose database was modified since the last check, and returns them. -/
def checkDatabases : Action (List Resource) := do
  let m := (← get).storage.state.monitor
  let changed := Resource.sort (Monitor.changedSince env.disk m.watched m.lastCheck)
  if changed ≠ [] then
    refresh changed .infinite
    fire (.resources { resources := changed, depth := .infinite })
  changeState fun s => { s with monitor := s.monitor.resetTo env.now }
  return changed

/-- Starts a new window of observation. -/
def resetMonitor : Action Unit :=
  changeState fun s => { s with monitor := s.monitor.resetTo env.now }

/-! ### Background work -/

/-- Runs at most `limit` fetch jobs. One that fails is done with. -/
def drainFetches : Nat → Action Unit
  | 0 => return
  | limit + 1 => do
    match (← get).storage.fetchQueue.take? with
    | none => return
    | some (job, q) =>
      change fun s => { s with fetchQueue := q }
      tryCatch (fetch env job) fun _ => return
      change fun s => { s with fetchQueue := s.fetchQueue.finish }
      drainFetches limit

/-- Delivers at most `limit` queued events. -/
def drainEvents : Nat → Action Unit
  | 0 => return
  | limit + 1 => do
    let s := (← get).storage
    match s.eventQueue.take? with
    | none => return
    | some (e, q) =>
      change fun s => { s with eventQueue := q }
      notify (s.listeners.of e) (.event e)
      change fun s => { s with eventQueue := s.eventQueue.finish }
      drainEvents limit

/-- Lets both queues work, for at most `limit` items each. -/
def drain (limit : Nat) : Action Unit := do
  drainFetches env limit
  drainEvents limit

/-- Stops both queues. -/
def shutdown : Action Unit :=
  change fun s =>
    { s with fetchQueue := s.fetchQueue.shutdown, eventQueue := s.eventQueue.shutdown }

end Storage
end StatusCache
