/-
# Watching working copy databases

`ChangeMonitor` and `changed_since`; the change-monitor map in section 3 of the svncache
specification.

Other programs may write the database of a working copy. A project whose database was modified
after the last check may have stale records.
-/

import StatusCache.Disk.Basic
import StatusCache.Resource
import StatusCache.Table

namespace StatusCache

/-- The watched databases, by project, and the start of the window of observation. -/
structure Monitor where
  databases : Table Resource Path := {}
  /-- Milliseconds since the epoch. -/
  lastCheck : Int

namespace Monitor

/-- Watches the database of a project, unless one is watched already. -/
def watch (m : Monitor) (project : Resource) (database : Path) : Monitor :=
  if m.databases.contains project then m
  else { m with databases := m.databases.insert project database }

/-- Whether a project is watched. -/
def watches (m : Monitor) (project : Resource) : Bool := m.databases.contains project

/-- Watches a project no longer. -/
def forget (m : Monitor) (project : Resource) : Monitor :=
  { m with databases := m.databases.erase project }

/-- The watched projects with their databases. -/
def watched (m : Monitor) : List (Resource × Path) := m.databases.entries

/-- Starts a new window of observation. -/
def resetTo (m : Monitor) (time : Int) : Monitor := { m with lastCheck := time }

/-- The projects whose database was modified after a time. -/
def changedSince (d : Disk) (watched : List (Resource × Path)) (since : Int) : List Resource :=
  (watched.filter fun (_, database) => (d.modified? database).any (since < ·)).map (·.1)

end Monitor
end StatusCache
