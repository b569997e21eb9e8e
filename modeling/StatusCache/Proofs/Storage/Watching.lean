/-
# Databases that are written while they are watched

A check of the databases notes when it starts, looks which databases are watched and when the window
of observation began, reads the databases one after the other, and then has the next window begin at
its start. Meanwhile other programs write databases, and a write stamps what it touches with the
time; projects come and go, and other checks are under way. Every interleaving of all this is a run
of a small machine (`Watching.Run`) whose reads are those of `Monitor.changedSince`; a check that
nothing interrupts is `Storage.checkDatabases` (`exists_run_of_checkDatabases`).

After a write, every window begins at the latest in the tick of the write until the database has
been read (`Pending`): a check that starts later has the written database ahead of it, and finishes
only once it has read it. So the first check that reads the database after a write finds it in its
window, or its window began in the very tick of the write (`reported_iff`). A window contains no
stamp of the tick in which it begins, and so such a write is missed, and stays missed: the next
window begins later. It makes no difference whether a check looks before or after it notes its
start, but for a project that comes in between and is written before the start (`Overlooks`).
-/

import Mathlib.Data.List.Nodup
import Mathlib.Logic.Function.Basic
import StatusCache.Proofs.Storage.Reachable
import StatusCache.Proofs.Table
import StatusCache.Storage.Upkeep

namespace StatusCache
namespace Storage

/-- How far a check of the databases has come. -/
structure Check where
  /-- When it started. -/
  start? : Option Int := none
  /-- When the window began that it looks into. -/
  since? : Option Int := none
  /-- The databases that it has yet to read. -/
  left : List (Resource × Path) := []
  found : List Resource := []

namespace Check

/-- A check that has looked without finding the project, but has yet to note its start. -/
def Overlooks (c : Check) (p : Resource) (db : Path) : Prop :=
  c.since?.isSome ∧ c.start? = none ∧ (p, db) ∉ c.left

/-- A check that will read the database. -/
def Ahead (c : Check) (p : Resource) (db : Path) : Prop :=
  c.since? = none ∨ (p, db) ∈ c.left

/-- What a check has seen lies in the past, and it reads every project once. -/
structure Sound (now : Int) (c : Check) : Prop where
  start_le : ∀ {v}, c.start? = some v → v ≤ now
  since_le : ∀ {v}, c.since? = some v → v ≤ now
  found_eq : c.since? = none → c.found = []
  nodup : (c.found ++ c.left.map (·.1)).Nodup

/-- A check has read the database of a project, and whether it will report the project is known. -/
structure Settled (p : Resource) (isFound : Prop) (c : Check) : Prop where
  isSome_since? : c.since?.isSome
  mem_found : p ∈ c.found ↔ isFound
  notMem_left : p ∉ c.left.map (·.1)

end Check

/-- A monitor, the disk and the time, and the checks that are under way. -/
structure Watching where
  monitor : Monitor
  disk : Disk
  now : Int
  checks : Nat → Check := fun _ => {}

namespace Watching

/-- What can happen. -/
inductive Move
  | pass (time : Int)
  | write (disk : Disk)
  | watch (project : Resource) (database : Path)
  | forget (project : Resource)
  | start (i : Nat)
  | look (i : Nat) (watched : List (Resource × Path))
  | read (i : Nat) (project : Resource) (database : Path)
  | finish (i : Nat) (report : List Resource)

variable {s t u x : Watching} {m : Move} {moves : List Move} {i : Nat} {p : Resource} {db : Path}

/-- One check becomes another one. -/
def setCheck (s : Watching) (i : Nat) (c : Check) : Watching :=
  { s with checks := Function.update s.checks i c }

/-- Time never goes back, and a write stamps what it touches of the watched databases with the
time. -/
inductive Step : Watching → Move → Watching → Prop
  | pass {s : Watching} {time : Int} (h : s.now ≤ time) : Step s (.pass time) { s with now := time }
  | write {s : Watching} {disk : Disk}
      (h : ∀ e ∈ s.monitor.watched, disk.modified? e.2 = s.disk.modified? e.2 ∨
        disk.modified? e.2 = some s.now) :
      Step s (.write disk) { s with disk := disk }
  | watch (s : Watching) (p : Resource) (db : Path) :
      Step s (.watch p db) { s with monitor := s.monitor.watch p db }
  | forget (s : Watching) (p : Resource) :
      Step s (.forget p) { s with monitor := s.monitor.forget p }
  | start {s : Watching} {i : Nat} (h : (s.checks i).start? = none) :
      Step s (.start i) (s.setCheck i { s.checks i with start? := some s.now })
  | look {s : Watching} {i : Nat} {watched : List (Resource × Path)}
      (h : (s.checks i).since? = none) (hwatched : watched.Perm s.monitor.watched) :
      Step s (.look i watched)
        (s.setCheck i { s.checks i with since? := some s.monitor.lastCheck, left := watched })
  | read {s : Watching} {i : Nat} {p : Resource} {db : Path} {rest : List (Resource × Path)}
      {since : Int} (hstart : (s.checks i).start?.isSome) (hsince : (s.checks i).since? = some since)
      (hleft : (s.checks i).left = (p, db) :: rest) :
      Step s (.read i p db) (s.setCheck i { s.checks i with
        left := rest
        found := (s.checks i).found ++ Monitor.changedSince s.disk [(p, db)] since })
  | finish {s : Watching} {i : Nat} {start : Int} {report : List Resource}
      (hstart : (s.checks i).start? = some start) (hsince : (s.checks i).since?.isSome)
      (hleft : (s.checks i).left = []) (hfound : (s.checks i).found = report) :
      Step s (.finish i report) { s.setCheck i {} with monitor := s.monitor.resetTo start }

/-- One step after the other. -/
inductive Run : Watching → List Move → Watching → Prop
  | nil (s : Watching) : Run s [] s
  | cons {s t u : Watching} {m : Move} {moves : List Move} (hstep : Step s m t)
      (hrun : Run t moves u) : Run s (m :: moves) u

/-- Nothing is watched yet, and the first window begins. -/
def initial (disk : Disk) (now : Int) : Watching :=
  { monitor := { lastCheck := now }, disk := disk, now := now }

/-- Runs one after the other are one run. -/
theorem Run.append {more : List Move} (h : Run s moves t) (hmore : Run t more u) :
    Run s (moves ++ more) u := by
  induction h with
  | nil => exact hmore
  | cons hstep _ ih => exact .cons hstep (ih hmore)

/-- What every step keeps, a run keeps. -/
theorem Run.induction {I : Watching → Prop} (h : Run s moves t)
    (hstep : ∀ s m t, m ∈ moves → Step s m t → I s → I t) (hs : I s) : I t := by
  induction h with
  | nil => exact hs
  | cons hfirst _ ih =>
    exact ih (fun s m t hm => hstep s m t (List.mem_cons_of_mem _ hm))
      (hstep _ _ _ List.mem_cons_self hfirst hs)

/-- A check that goes on leaves the monitor. -/
@[simp]
theorem monitor_setCheck (s : Watching) (i : Nat) (c : Check) :
    (s.setCheck i c).monitor = s.monitor := rfl

/-- A check that goes on leaves the disk. -/
@[simp]
theorem disk_setCheck (s : Watching) (i : Nat) (c : Check) : (s.setCheck i c).disk = s.disk := rfl

/-- A check that goes on is as far as it was set. -/
@[simp]
theorem checks_setCheck_self (s : Watching) (i : Nat) (c : Check) :
    (s.setCheck i c).checks i = c := Function.update_self ..

/-- What holds of a check holds of it after another was set, and if it holds of the one that is
set. -/
theorem checks_setCheck {P : Check → Prop} {j : Nat} {c : Check} (hs : P (s.checks i))
    (hc : j = i → P c) : P ((s.setCheck j c).checks i) := by
  by_cases hj : j = i
  · subst hj
    rw [checks_setCheck_self]
    exact hc rfl
  · rw [setCheck]
    simp only [Function.update_of_ne (Ne.symm hj)]
    exact hs

/-- Of two settings of a check the later one counts. -/
@[simp]
theorem setCheck_setCheck (s : Watching) (i : Nat) (c c' : Check) :
    (s.setCheck i c).setCheck i c' = s.setCheck i c' := by
  simp only [setCheck, Function.update_idem]

/-- To set a check as it is changes nothing. -/
@[simp]
theorem setCheck_self (s : Watching) (i : Nat) : s.setCheck i (s.checks i) = s := by
  rw [setCheck, Function.update_eq_self]

/-! ### Checks that nothing interrupts -/

/-- A single database has changed if it was written later. -/
theorem changedSince_singleton (d : Disk) (p : Resource) (db : Path) (since : Int) :
    Monitor.changedSince d [(p, db)] since =
      if (d.modified? db).any (since < ·) then [p] else [] := by
  unfold Monitor.changedSince
  split <;> simp [*]

/-- Databases have changed one by one. -/
theorem changedSince_cons (d : Disk) (e : Resource × Path) (es : List (Resource × Path))
    (since : Int) : Monitor.changedSince d (e :: es) since =
      Monitor.changedSince d [e] since ++ Monitor.changedSince d es since := by
  rw [Monitor.changedSince, Monitor.changedSince, Monitor.changedSince, ← List.map_append,
    ← List.filter_append]
  rfl

/-- A check reads what is left for it, one by one. -/
theorem run_reads {left : List (Resource × Path)} {since : Int}
    (hstart : (s.checks i).start?.isSome) (hsince : (s.checks i).since? = some since)
    (hleft : (s.checks i).left = left) :
    Run s (left.map fun e => .read i e.1 e.2) (s.setCheck i { s.checks i with
      left := []
      found := (s.checks i).found ++ Monitor.changedSince s.disk left since }) := by
  induction left generalizing s with
  | nil =>
    have hsame : { s.checks i with
        left := []
        found := (s.checks i).found ++ Monitor.changedSince s.disk [] since } = s.checks i := by
      rw [Monitor.changedSince, List.filter_nil, List.map_nil, List.append_nil, ← hleft]
    rw [hsame, setCheck_self]
    exact .nil s
  | cons e left ih =>
    refine .cons (.read hstart hsince hleft) ?_
    have hrest := @ih (s.setCheck i { s.checks i with
        left := left
        found := (s.checks i).found ++ Monitor.changedSince s.disk [e] since })
      (by rwa [checks_setCheck_self]) (by rwa [checks_setCheck_self]) (by rw [checks_setCheck_self])
    rw [checks_setCheck_self, setCheck_setCheck, disk_setCheck, List.append_assoc,
      ← changedSince_cons] at hrest
    exact hrest

/-- What a check does before it is through. -/
def inspection (i : Nat) (watched : List (Resource × Path)) : List Move :=
  .start i :: .look i watched :: watched.map fun e => .read i e.1 e.2

/-- A check that is not disturbed finds what has changed. -/
theorem run_inspection {found : List Resource} (hidle : s.checks i = {})
    (hfound : Monitor.changedSince s.disk s.monitor.watched s.monitor.lastCheck = found) :
    Run s (inspection i s.monitor.watched) (s.setCheck i
      { start? := some s.now, since? := some s.monitor.lastCheck, found := found }) := by
  subst hfound
  refine .cons (.start (by rw [hidle])) (.cons (.look (by simp [hidle]) (.refl _)) ?_)
  have hreads := @run_reads (s.setCheck i
      { start? := some s.now
        since? := some s.monitor.lastCheck
        left := s.monitor.watched }) i s.monitor.watched s.monitor.lastCheck
    (by simp) (by simp) (by simp)
  simpa [hidle] using hreads

/-- A refresh leaves the monitor. -/
theorem monitor_refresh (rs : List Resource) (depth : Depth) (st : State) :
    (rs.foldl (refreshOne depth) st).monitor = st.monitor := by
  induction rs generalizing st with
  | nil => rfl
  | cons r rs ih => rw [List.foldl_cons, ih]; rfl

/-- To fire an event leaves the state. -/
theorem state_fire (e : Event) (s : Session) :
    ((fire e).run s).2.storage.state = s.storage.state := by
  change Storage.state (ite _ _ _) = _
  split <;> rfl

/-- **The check of a storage is one that nothing interrupts**: it returns the report, in order, and
leaves the monitor as the check does. -/
theorem exists_run_of_checkDatabases (env : Env) (s : Session) :
    ∃ report x, Run { monitor := s.storage.state.monitor, disk := env.disk, now := env.now }
        (inspection 0 s.storage.state.monitor.watched ++ [.finish 0 report]) x ∧
      ((checkDatabases env).run s).1 = .ok (Resource.sort report) ∧
      ((checkDatabases env).run s).2.storage.state.monitor = x.monitor := by
  let m := s.storage.state.monitor
  let report := Monitor.changedSince env.disk m.watched m.lastCheck
  let w : Watching := { monitor := m, disk := env.disk, now := env.now }
  let through := w.setCheck 0
    { start? := some env.now, since? := some m.lastCheck, found := report }
  have hrun : Run w (inspection 0 m.watched) through := run_inspection rfl rfl
  have hfinish : Step through (.finish 0 report)
      { through.setCheck 0 {} with monitor := m.resetTo env.now } := .finish rfl rfl rfl rfl
  refine ⟨report, _, hrun.append (.cons hfinish (.nil _)), ?_⟩
  rw [checkDatabases, run_bind_ok (run_get s)]
  simp only
  split
  · have hkept (e : Event) (rs : List Resource) :
        ((fire e).run ((refresh rs .infinite).run s).2).2.storage.state.monitor = m := by
      rw [state_fire]
      exact monitor_refresh _ _ _
    exact ⟨rfl, congrArg (Monitor.resetTo · env.now) (hkept _ _)⟩
  · exact ⟨rfl, rfl⟩

/-! ### Times and lists of checks -/

/-- No window begins in the future, and no project is watched twice. -/
structure Sound (s : Watching) : Prop where
  lastCheck_le : s.monitor.lastCheck ≤ s.now
  distinct : s.monitor.databases.Distinct
  checks : ∀ i, Check.Sound s.now (s.checks i)

/-- At the start no window lies in the future. -/
theorem sound_initial (disk : Disk) (now : Int) : (initial disk now).Sound where
  lastCheck_le := Int.le_refl _
  distinct := Table.distinct_empty
  checks _ := ⟨nofun, nofun, fun _ => rfl, List.nodup_nil⟩

/-- A step opens no window in the future. -/
theorem Step.sound (h : Step s m t) (hs : s.Sound) : t.Sound := by
  cases h with
  | pass hle =>
    exact ⟨Int.le_trans hs.lastCheck_le hle, hs.distinct, fun i =>
      { hs.checks i with
        start_le := fun hv => Int.le_trans ((hs.checks i).start_le hv) hle
        since_le := fun hv => Int.le_trans ((hs.checks i).since_le hv) hle }⟩
  | write => exact ⟨hs.lastCheck_le, hs.distinct, hs.checks⟩
  | watch p db =>
    refine ⟨?_, ?_, hs.checks⟩
    · unfold Monitor.watch
      split <;> exact hs.lastCheck_le
    · unfold Monitor.watch
      split
      · exact hs.distinct
      · exact hs.distinct.insert p db
  | forget p => exact ⟨hs.lastCheck_le, hs.distinct.erase p, hs.checks⟩
  | start =>
    exact ⟨hs.lastCheck_le, hs.distinct, fun j => checks_setCheck (hs.checks j) fun hj =>
      { hs.checks _ with start_le := fun hv => Int.le_of_eq (Option.some.inj hv).symm }⟩
  | look hnone hwatched =>
    refine ⟨hs.lastCheck_le, hs.distinct, fun j => checks_setCheck (hs.checks j) fun hj =>
      ⟨(hs.checks _).start_le, fun hv => Option.some.inj hv ▸ hs.lastCheck_le, nofun, ?_⟩⟩
    -- A check that has not looked yet has found nothing, and every database is watched once.
    rw [(hs.checks _).found_eq hnone]
    exact (hwatched.map _).nodup_iff.2 hs.distinct
  | @read i _ _ _ _ hstart hsince hleft =>
    refine ⟨hs.lastCheck_le, hs.distinct, fun j => checks_setCheck (hs.checks j) fun hj =>
      ⟨(hs.checks i).start_le, (hs.checks i).since_le, fun hnone => ?_, ?_⟩⟩
    · rw [hsince] at hnone
      cases hnone
    · have hnodup := (hs.checks i).nodup
      rw [hleft] at hnodup
      rw [changedSince_singleton]
      split
      · simpa using hnodup
      · rw [List.append_nil]
        exact hnodup.sublist (List.Sublist.append_left (List.sublist_cons_self _ _) _)
  | finish hstart =>
    exact ⟨(hs.checks _).start_le hstart, hs.distinct,
      fun j => checks_setCheck (hs.checks j) fun _ =>
        ⟨nofun, nofun, fun _ => rfl, List.nodup_nil⟩⟩

/-- A run opens no window in the future. -/
theorem Run.sound (h : Run s moves t) (hs : s.Sound) : t.Sound :=
  h.induction (fun _ _ _ _ hstep => hstep.sound) hs

/-! ### From a write to the next read -/

/-- A watched database was written at a time or later, and nobody has read it since. -/
structure Pending (p : Resource) (db : Path) (time : Int) (s : Watching) : Prop where
  watched : s.monitor.databases.get? p = some db
  stamped : ∃ stamp, s.disk.modified? db = some stamp ∧ time ≤ stamp
  le_now : time ≤ s.now
  lastCheck_le : s.monitor.lastCheck ≤ time
  since_le : ∀ j {v}, (s.checks j).since? = some v → v ≤ time
  /-- A check that started later has yet to read the database. -/
  ahead : ∀ j, (s.checks j).Ahead p db ∨ ∃ v, (s.checks j).start? = some v ∧ v ≤ time

/-- A database in the monitor is watched. -/
theorem mem_watched (h : s.monitor.databases.get? p = some db) : (p, db) ∈ s.monitor.watched := by
  obtain ⟨e, he, hdb⟩ := Option.map_eq_some_iff.1 h
  have hkey := List.find?_some he
  obtain rfl : e = (p, db) := Prod.ext (by simpa using hkey) hdb
  exact List.mem_of_find?_eq_some he

/-- From the write of a database on, it is pending. -/
theorem Sound.pending_of_write {disk : Disk} (hs : s.Sound)
    (hwatched : s.monitor.databases.get? p = some db)
    (hoverlooks : ∀ j, ¬(s.checks j).Overlooks p db) (hwrite : Step s (.write disk) t)
    (hstamp : disk.modified? db = some s.now) : Pending p db s.now t := by
  cases hwrite
  refine ⟨hwatched, ⟨s.now, hstamp, Int.le_refl _⟩, Int.le_refl _, hs.lastCheck_le,
    fun j _ => (hs.checks j).since_le, fun j => ?_⟩
  by_contra hnot
  simp only [Check.Ahead, not_or, not_exists, not_and] at hnot
  obtain ⟨⟨hsince, hleft⟩, hstart⟩ := hnot
  refine hoverlooks j ⟨Option.isSome_iff_ne_none.2 hsince, ?_, hleft⟩
  cases hv : (s.checks j).start? with
  | none => rfl
  | some v => exact absurd ((hs.checks j).start_le hv) (hstart v hv)

/-- A database stays in the monitor until it is forgotten. -/
theorem Step.get?_databases (h : Step s m t) (hget : s.monitor.databases.get? p = some db)
    (hkeeps : m ≠ .forget p) : t.monitor.databases.get? p = some db := by
  cases h with
  | watch q db' =>
    unfold Monitor.watch
    split
    · exact hget
    next hnot =>
      have hne : q ≠ p := by
        rintro rfl
        exact hnot (by rw [Table.contains, hget]; rfl)
      rw [Table.get?_insert, if_neg hne]
      exact hget
  | forget q =>
    have hne : p ≠ q := fun heq => hkeeps (heq ▸ rfl)
    rw [Monitor.forget, Table.get?_erase, if_neg hne]
    exact hget
  | _ => exact hget

/-- Only a read takes a watched database from those that a check will read. -/
theorem Step.ahead (h : Step s m t) (hget : s.monitor.databases.get? p = some db)
    (hahead : (s.checks i).Ahead p db) (hunread : m ≠ .read i p db) : (t.checks i).Ahead p db := by
  cases h with
  | start => exact checks_setCheck (P := (·.Ahead p db)) hahead fun hj => hj ▸ hahead
  | look hnone hwatched =>
    exact checks_setCheck (P := (·.Ahead p db)) hahead fun _ =>
      .inr (hwatched.mem_iff.2 (mem_watched hget))
  | @read j q db' rest since hstart hsince hleft =>
    refine checks_setCheck (P := (·.Ahead p db)) hahead fun hj => ?_
    subst hj
    refine hahead.imp_right fun hmem => ?_
    rw [hleft] at hmem
    rcases List.mem_cons.1 hmem with heq | hrest
    · obtain ⟨rfl, rfl⟩ := Prod.mk.inj heq
      exact absurd rfl hunread
    · exact hrest
  | finish => exact checks_setCheck (P := (·.Ahead p db)) hahead fun _ => .inl rfl
  | _ => exact hahead

/-- A check keeps its start until it is through. -/
theorem Step.start? (h : Step s m t) {v : Int} (hv : (s.checks i).start? = some v) :
    (t.checks i).start? = some v ∨ (t.checks i).since? = none := by
  have hkept {j : Nat} {c : Check} := checks_setCheck (s := s) (i := i) (j := j) (c := c)
    (P := fun c => c.start? = some v ∨ c.since? = none) (.inl hv)
  cases h with
  | start hnone =>
    refine hkept fun hj => ?_
    rw [hj, hv] at hnone
    cases hnone
  | look | read => exact hkept fun hj => .inl (hj ▸ hv)
  | finish => exact hkept fun _ => .inr rfl
  | _ => exact .inl hv

/-- A step keeps the database pending, if it neither reads the database nor lets go of it. -/
theorem Step.pending {time : Int} (h : Step s m t) (hp : Pending p db time s)
    (hkeeps : m ≠ .forget p) (hunread : ∀ j, m ≠ .read j p db) : Pending p db time t := by
  have hwatched := h.get?_databases hp.watched hkeeps
  -- A check has the database ahead of it or began before the write; only reading ends the former.
  have hahead : ∀ j, (t.checks j).Ahead p db ∨ ∃ v, (t.checks j).start? = some v ∧ v ≤ time := by
    intro j
    rcases hp.ahead j with hahead | ⟨v, hv, hle⟩
    · exact .inl (h.ahead hp.watched hahead (hunread j))
    · exact (h.start? hv).symm.imp .inl fun hv => ⟨v, hv, hle⟩
  have hsince {i : Nat} {c : Check} (hc : ∀ {v}, c.since? = some v → v ≤ time) (j : Nat) :
      ∀ {v}, ((s.setCheck i c).checks j).since? = some v → v ≤ time :=
    checks_setCheck (P := fun c => ∀ {v}, c.since? = some v → v ≤ time) (hp.since_le j) fun _ => hc
  cases h with
  | pass hle => exact { hp with le_now := Int.le_trans hp.le_now hle }
  | write hdisk =>
    refine { hp with stamped := ?_ }
    rcases hdisk _ (mem_watched hp.watched) with hsame | hnow
    · rw [hsame]
      exact hp.stamped
    · exact ⟨s.now, hnow, hp.le_now⟩
  | watch q db' =>
    have hkept : (s.monitor.watch q db').lastCheck = s.monitor.lastCheck := by
      unfold Monitor.watch
      split <;> rfl
    exact { hp with watched := hwatched, lastCheck_le := hkept ▸ hp.lastCheck_le }
  | forget q => exact { hp with watched := hwatched }
  | start | read => exact { hp with since_le := hsince (hp.since_le _), ahead := hahead }
  | look =>
    exact { hp with
      since_le := hsince fun hv => Option.some.inj hv ▸ hp.lastCheck_le
      ahead := hahead }
  | @finish i start _ hstart hsome hleft =>
    -- A check that ends has nothing ahead of it, so it began early enough to leave the write to the
    -- next.
    have hle : start ≤ time := by
      rcases hp.ahead i with (hnone | hmem) | ⟨v, hv, hle⟩
      · rw [hnone] at hsome
        cases hsome
      · rw [hleft] at hmem
        cases hmem
      · rw [hstart] at hv
        exact Option.some.inj hv ▸ hle
    exact { hp with lastCheck_le := hle, since_le := hsince nofun, ahead := hahead }

/-- A check that is through has read what it had ahead, and until then the database was pending. -/
theorem Run.exists_read {time : Int} (hrun : Run u moves x) (hp : Pending p db time u)
    (hahead : (u.checks i).Ahead p db) (hkeeps : .forget p ∉ moves)
    (hothers : ∀ j, j ≠ i → .read j p db ∉ moves) (hthrough : ¬(x.checks i).Ahead p db) :
    ∃ before after y z, moves = before ++ .read i p db :: after ∧ Run u before y ∧
      Pending p db time y ∧ Step y (.read i p db) z ∧ Run z after x := by
  induction hrun with
  | nil => exact absurd hahead hthrough
  | @cons s t _ m moves hstep hrun ih =>
    by_cases hm : m = .read i p db
    · subst hm
      exact ⟨[], moves, s, t, rfl, .nil s, hp, hstep, hrun⟩
    · have hunread : ∀ j, m ≠ .read j p db := by
        rintro j rfl
        by_cases hj : j = i
        · exact hm (hj ▸ rfl)
        · exact hothers j hj List.mem_cons_self
      have hkept : m ≠ .forget p := fun heq => hkeeps (heq ▸ List.mem_cons_self)
      obtain ⟨before, after, y, z, hmoves, hbefore, hy, hread, hafter⟩ :=
        ih (hstep.pending hp hkept hunread) (hstep.ahead hp.watched hahead hm)
          (fun hmem => hkeeps (List.mem_cons_of_mem _ hmem))
          (fun j hj hmem => hothers j hj (List.mem_cons_of_mem _ hmem)) hthrough
      exact ⟨m :: before, after, y, z, by rw [hmoves]; rfl, .cons hstep hbefore, hy, hread, hafter⟩

/-! ### From a read to the report -/

/-- A check finds a project if its database is stamped after the beginning of the window. -/
theorem Step.settled_of_read (h : Step s (.read i p db) t) (hs : s.Sound) {stamp : Int}
    (hstamp : s.disk.modified? db = some stamp) :
    ∃ since, (s.checks i).since? = some since ∧ (t.checks i).Settled p (since < stamp) := by
  cases h with
  | @read _ _ _ rest since hstart hsince hleft =>
    have hnodup := (hs.checks i).nodup
    rw [hleft, List.map_cons, List.nodup_middle, List.nodup_cons, List.mem_append, not_or] at hnodup
    obtain ⟨⟨hfound, hrest⟩, -⟩ := hnodup
    refine ⟨since, hsince, ?_⟩
    rw [checks_setCheck_self, changedSince_singleton, hstamp]
    refine ⟨by rw [hsince]; rfl, ?_, hrest⟩
    by_cases hlt : since < stamp <;> simp [hlt, hfound]

/-- What a check has found out about a project stays, until the check is through. -/
theorem Step.settled {isFound : Prop} (h : Step s m t) (hs : (s.checks i).Settled p isFound)
    (hunfinished : ∀ report, m ≠ .finish i report) : (t.checks i).Settled p isFound := by
  have hkept {j : Nat} {c : Check} := checks_setCheck (j := j) (c := c)
    (P := (·.Settled p isFound)) hs
  cases h with
  | start => exact hkept fun hj => by subst hj; exact { hs with }
  | look hnone =>
    refine hkept fun hj => ?_
    have hsome := hs.isSome_since?
    rw [← hj, hnone] at hsome
    cases hsome
  | @read j q db' rest since hstart hsince hleft =>
    refine hkept fun hj => ?_
    subst hj
    obtain ⟨hsome, hfound, hnot⟩ := hs
    rw [hleft, List.map_cons, List.mem_cons, not_or] at hnot
    refine ⟨hsome, ?_, hnot.2⟩
    rw [changedSince_singleton, List.mem_append, hfound]
    split <;> simp [hnot.1]
  | @finish j =>
    refine hkept fun hj => ?_
    subst hj
    exact absurd rfl (hunfinished _)
  | _ => exact hs

/-- **A write of a watched database is reported by the next check that reads it, unless the window
of that check begins in the very tick of the last write**: no window begins later than the write,
and the check reports the project if and only if its window begins before the stamp that it reads. -/
theorem reported_iff {disk disk' : Disk} {began : Int} {earlier : List Move} {x' : Watching}
    {report : List Resource} (hbegan : Run (initial disk began) earlier s)
    (hwatched : s.monitor.databases.get? p = some db)
    (hoverlooks : ∀ j, ¬(s.checks j).Overlooks p db) (hwrite : Step s (.write disk') u)
    (hstamp : disk'.modified? db = some s.now) (hahead : (u.checks i).Ahead p db)
    (hrun : Run u moves x) (hkeeps : .forget p ∉ moves)
    (hothers : ∀ j, j ≠ i → .read j p db ∉ moves) (hunfinished : ∀ r, .finish i r ∉ moves)
    (hfinish : Step x (.finish i report) x') :
    ∃ before after y since stamp, moves = before ++ .read i p db :: after ∧ Run u before y ∧
      (y.checks i).since? = some since ∧ y.disk.modified? db = some stamp ∧
      since ≤ s.now ∧ s.now ≤ stamp ∧ (p ∈ report ↔ since < stamp) := by
  have hs := hbegan.sound (sound_initial disk began)
  have hpending := hs.pending_of_write hwatched hoverlooks hwrite hstamp
  cases hfinish with
  | finish hstart hsome hleft hfound =>
    subst hfound
    have hthrough : ¬(x.checks i).Ahead p db := by
      rintro (hnone | hmem)
      · rw [hnone] at hsome
        cases hsome
      · rw [hleft] at hmem
        cases hmem
    obtain ⟨before, after, y, z, rfl, hbefore, hy, hread, hafter⟩ :=
      hrun.exists_read hpending hahead hkeeps hothers hthrough
    obtain ⟨stamp, hmodified, hle⟩ := hy.stamped
    have hysound := hbefore.sound (hwrite.sound hs)
    obtain ⟨since, hsince, hsettled⟩ := hread.settled_of_read hysound hmodified
    have hxsettled : (x.checks i).Settled p (since < stamp) :=
      hafter.induction (I := fun s => (s.checks i).Settled p (since < stamp))
        (fun _ _ _ hm hstep hs => hstep.settled hs fun r heq =>
          hunfinished r (heq ▸ List.mem_append_right _ (List.mem_cons_of_mem _ hm))) hsettled
    exact ⟨before, after, y, since, stamp, rfl, hbefore, hsince, hmodified,
      hy.since_le i hsince, hle, hxsettled.mem_found⟩

/-- The window of the second check begins with the first, which starts in the tick of the write. -/
theorem reported_iff_same_tick :
    let db : Path := ⟨"wc.db"⟩
    let p := Resource.project "p"
    let disk (time : Int) : Disk := { nodes := ⟨[(["wc.db"], .file [] time)]⟩ }
    let between : List Move := .finish 0 [] :: .pass 200 :: inspection 1 [(p, db)]
    ∃ s u x x', Run (initial (disk 50) 100) (.watch p db :: inspection 0 [(p, db)]) s ∧
      Step s (.write (disk 100)) u ∧ (disk 100).modified? db = some s.now ∧ Run u between x ∧
      Step x (.finish 1 []) x' ∧ ∃ before after y since stamp,
        between = before ++ .read 1 p db :: after ∧ Run u before y ∧
        (y.checks 1).since? = some since ∧ y.disk.modified? db = some stamp ∧
        since = 100 ∧ stamp = 100 := by
  intro db p disk between
  have hstamp : (disk 100).modified? db = some 100 := by decide +kernel
  let first : Watching := { initial (disk 50) 100 with
    monitor := { databases := ⟨[(p, db)]⟩, lastCheck := 100 } }
  let s := first.setCheck 0 { start? := some 100, since? := some 100 }
  let u := { s with disk := disk 100 }
  let through := { u.setCheck 0 {} with now := 200 }
  let x := through.setCheck 1 { start? := some 200, since? := some 100 }
  have hbegan : Run (initial (disk 50) 100) (.watch p db :: inspection 0 [(p, db)]) s := by
    have hnothing : Monitor.changedSince (disk 50) [(p, db)] 100 = [] := by decide +kernel
    exact .cons (.watch _ p db) (run_inspection (s := first) rfl hnothing)
  have hwrite : Step s (.write (disk 100)) u := .write (by decide +kernel)
  have hrun : Run u between x := by
    have hnothing : Monitor.changedSince (disk 100) [(p, db)] 100 = [] := by decide +kernel
    have hfinish : Step u (.finish 0 []) { u.setCheck 0 {} with monitor := first.monitor } :=
      .finish rfl rfl rfl rfl
    have hpass : Step { u.setCheck 0 {} with monitor := first.monitor } (.pass 200) through :=
      .pass (by decide)
    exact .cons hfinish (.cons hpass (run_inspection (s := through) rfl hnothing))
  have hfinish : Step x (.finish 1 []) _ := .finish rfl rfl rfl rfl
  refine ⟨s, u, x, _, hbegan, hwrite, hstamp, hrun, hfinish, ?_⟩
  have hwatched : s.monitor.databases.get? p = some db := by decide
  have hoverlooks : ∀ j, ¬(s.checks j).Overlooks p db := fun j =>
    checks_setCheck (P := fun c => ¬c.Overlooks p db) nofun fun _ h => by cases h.2.1
  have hothers : ∀ j, j ≠ 1 → .read j p db ∉ between := by
    intro j hj hmem
    obtain rfl : j = 1 := by simpa [between, inspection, p, db] using hmem
    exact hj rfl
  obtain ⟨before, after, y, since, stamp, hsplit, hbefore, hsince, hmodified, hle, hle', hiff⟩ :=
    reported_iff hbegan hwatched hoverlooks hwrite hstamp (.inl rfl) hrun
      (by simp [between, inspection]) hothers (by simp [between, inspection]) hfinish
  have hnot : ¬since < stamp := fun hlt => by cases hiff.2 hlt
  have hnow : s.now = 100 := rfl
  exact ⟨before, after, y, since, stamp, hsplit, hbefore, hsince, hmodified, by omega, by omega⟩

end Watching

end Storage
end StatusCache
