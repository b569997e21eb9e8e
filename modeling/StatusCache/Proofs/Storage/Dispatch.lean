/-
# Dispatching events

Whoever uses a storage fires events and registers listeners, and one worker takes queued events and
tells those who listen when it gets to them. A dispatch goes through any interleaving of these moves
(`Dispatch.run`). Its queue and worker are a station (`Dispatch.Step.station`), so all that is known
of stations holds of them, and draining the event queue is one of the interleavings
(`Dispatch.run_drainEvents`).
-/

import StatusCache.Proofs.Queue.Event
import StatusCache.Proofs.Storage.Reachable
import StatusCache.Storage.Upkeep

namespace StatusCache

open Queue

namespace Storage

/-- A storage in use, the event that its worker is busy with, and what has happened to events, the
newest first. -/
structure Dispatch where
  session : Session
  running : Option Event := none
  log : List (Happening Event) := []

namespace Dispatch

/-- What the users of a storage and its event worker can do. -/
inductive Move
  | fire (e : Event)
  | listen (channel : Listeners.Channel) (name : String)
  | unlisten (channel : Listeners.Channel) (name : String)
  | take
  | handle
deriving DecidableEq, Repr

/-- A new storage, with an idle worker. -/
def start (config : Config) (now : Int) : Dispatch where
  session := { storage := make config now }

/-- The events that wait. -/
def pending (d : Dispatch) : List Event := d.session.storage.eventQueue.pending

/-- No event waits, and the worker is idle. -/
def IsDrained (d : Dispatch) : Prop := d.pending = [] ∧ d.running = none

instance (d : Dispatch) : Decidable d.IsDrained := inferInstanceAs (Decidable (_ ∧ _))

/-- Registers or removes listeners. -/
def listeners (f : Listeners → Listeners) : Action Unit :=
  change fun s => { s with listeners := f s.listeners }

/-- Tells of an event those who listen, and is done with it. -/
def handle (e : Event) : Action Unit := do
  notify ((← get).storage.listeners.of e) (.event e)
  change fun s => { s with eventQueue := s.eventQueue.finish }

/-- The dispatch after a move. A worker that is busy takes nothing, and an idle one handles
nothing. -/
def after (d : Dispatch) : Move → Dispatch
  | .fire e =>
    { d with
      session := ((fire e).run d.session).2
      log := if d.session.storage.listeners.wants e then .pushed e :: d.log else d.log }
  | .listen channel name =>
    { d with session := ((listeners (·.add channel name)).run d.session).2 }
  | .unlisten channel name =>
    { d with session := ((listeners (·.remove channel name)).run d.session).2 }
  | .take =>
    match d.running, d.session.storage.eventQueue.take? with
    | none, some (e, q) =>
      { session := ((change fun s => { s with eventQueue := q }).run d.session).2
        running := some e
        log := .taken e :: d.log }
    | _, _ => d
  | .handle =>
    match d.running with
    | some e =>
      { session := ((handle e).run d.session).2, running := none, log := .finished e :: d.log }
    | none => d

/-- The dispatch after moves, in their order. -/
def run (d : Dispatch) (moves : List Move) : Dispatch := moves.foldl after d

/-- The events that are fired, in their order. -/
def firedIn (moves : List Move) : List Event :=
  moves.filterMap fun
    | .fire e => some e
    | .listen _ _ => none
    | .unlisten _ _ => none
    | .take => none
    | .handle => none

variable {d d' : Dispatch} {e : Event} {m : Move} {moves more : List Move}

/-- What a move can do. -/
inductive Step (d : Dispatch) : Move → Dispatch → Prop
  | fire {e : Event} (hwants : d.session.storage.listeners.wants e) :
    Step d (.fire e)
      { d with
        session.storage.eventQueue := d.session.storage.eventQueue.push e
        log := .pushed e :: d.log }
  | listen (channel : Listeners.Channel) (name : String) :
    Step d (.listen channel name)
      { d with session.storage.listeners := d.session.storage.listeners.add channel name }
  | unlisten (channel : Listeners.Channel) (name : String) :
    Step d (.unlisten channel name)
      { d with session.storage.listeners := d.session.storage.listeners.remove channel name }
  | take {e : Event} {q : Queue Event} (hidle : d.running = none)
    (htake : d.session.storage.eventQueue.take? = some (e, q)) :
    Step d .take
      { session := { d.session with storage := { d.session.storage with eventQueue := q } }
        running := some e
        log := .taken e :: d.log }
  | handle {e : Event} (hbusy : d.running = some e) :
    Step d .handle
      { session :=
          { d.session with
            storage.eventQueue := d.session.storage.eventQueue.finish
            notices := d.session.notices ++
              (d.session.storage.listeners.of e).map fun name => (name, .event e) }
        running := none
        log := .finished e :: d.log }
  | nothing (m : Move) : Step d m d

/-- An event that is wanted is pushed. -/
theorem after_fire (hwants : d.session.storage.listeners.wants e) :
    d.after (.fire e) =
      { d with
        session.storage.eventQueue := d.session.storage.eventQueue.push e
        log := .pushed e :: d.log } := by
  simp only [after, Storage.fire, run_change, if_pos hwants]

/-- A worker that is idle takes the first event. -/
theorem after_take {q : Queue Event} (hidle : d.running = none)
    (htake : d.session.storage.eventQueue.take? = some (e, q)) :
    d.after .take =
      { session := { d.session with storage := { d.session.storage with eventQueue := q } }
        running := some e
        log := .taken e :: d.log } := by
  simp only [after, hidle, htake, run_change]

/-- A worker tells of the event that it has taken. -/
theorem after_handle (hbusy : d.running = some e) :
    d.after .handle =
      { session :=
          { d.session with
            storage.eventQueue := d.session.storage.eventQueue.finish
            notices := d.session.notices ++
              (d.session.storage.listeners.of e).map fun name => (name, .event e) }
        running := none
        log := .finished e :: d.log } := by
  simp only [after, hbusy]
  rfl

/-- A move that changes nothing is a step. -/
theorem Step.of_after_eq (h : d.after m = d) : Step d m (d.after m) := by
  rw [h]
  exact .nothing m

/-- Every move is a step. -/
theorem step_after (d : Dispatch) (m : Move) : Step d m (d.after m) := by
  cases m with
  | fire e =>
    by_cases hwants : d.session.storage.listeners.wants e
    · rw [after_fire hwants]
      exact .fire hwants
    · exact .of_after_eq (by simp only [after, Storage.fire, run_change, if_neg hwants])
  | listen channel name => exact .listen channel name
  | unlisten channel name => exact .unlisten channel name
  | take =>
    cases hrunning : d.running with
    | some e => exact .of_after_eq (by simp only [after, hrunning])
    | none =>
      cases htake : d.session.storage.eventQueue.take? with
      | none => exact .of_after_eq (by simp only [after, hrunning, htake])
      | some taken =>
        rw [after_take hrunning htake]
        exact .take hrunning htake
  | handle =>
    cases hrunning : d.running with
    | some e =>
      rw [after_handle hrunning]
      exact .handle hrunning
    | none => exact .of_after_eq (by simp only [after, hrunning])

/-- Moves one after the other are one run. -/
theorem run_append (d : Dispatch) (moves more : List Move) :
    d.run (moves ++ more) = (d.run moves).run more := List.foldl_append

/-- **What every move keeps holds after every run.** -/
theorem run_induction {I : Dispatch → Prop}
    (hstep : ∀ m ∈ moves, ∀ d d', Step d m d' → I d → I d') (hd : I d) : I (d.run moves) := by
  induction moves generalizing d with
  | nil => exact hd
  | cons m moves ih =>
    rw [List.forall_mem_cons] at hstep
    exact ih hstep.2 (hstep.1 d (d.after m) (step_after d m) hd)

/-- A step adds to the log. -/
theorem Step.suffix (h : Step d m d') : d.log <:+ d'.log := by
  cases h with
  | fire hwants => exact List.suffix_cons _ _
  | listen channel name => exact List.suffix_rfl
  | unlisten channel name => exact List.suffix_rfl
  | take hidle htake => exact List.suffix_cons _ _
  | handle hbusy => exact List.suffix_cons _ _
  | nothing => exact List.suffix_rfl

/-- What is in the log stays there. -/
theorem suffix_run (d : Dispatch) (moves : List Move) : d.log <:+ (d.run moves).log :=
  run_induction (I := fun d' => d.log <:+ d'.log)
    (fun _ _ _ _ hstep hsuffix => hsuffix.trans hstep.suffix) List.suffix_rfl

/-- Nothing is queued that is not fired. -/
theorem fire_mem_of_pushed {config : Config} {now : Int}
    (h : .pushed e ∈ ((start config now).run moves).log) : .fire e ∈ moves := by
  have hstart : ∀ e, .pushed e ∈ (start config now).log → .fire e ∈ moves := by
    intro e he
    cases he
  refine run_induction (I := fun d => ∀ e, .pushed e ∈ d.log → .fire e ∈ moves)
    (fun m hm d d' hstep hd e he => ?_) hstart e h
  cases hstep with
  | fire hwants =>
    rcases List.mem_cons.1 he with heq | he
    · cases heq
      exact hm
    · exact hd e he
  | listen channel name => exact hd e he
  | unlisten channel name => exact hd e he
  | take hidle htake => exact hd e (by simpa using he)
  | handle hbusy => exact hd e (by simpa using he)
  | nothing => exact hd e he

/-! ### The event queue as a station -/

/-- The event queue with its worker. -/
def station (d : Dispatch) : Station Event where
  queue := d.session.storage.eventQueue
  running := d.running
  log := d.log

/-- **Each move is at most one move of the event queue.** -/
theorem Step.station (h : Step d m d') :
    d'.station = d.station ∨ ∃ move, d'.station = d.station.after move := by
  cases h with
  | fire hwants => exact .inr ⟨.push _, rfl⟩
  | listen channel name => exact .inl rfl
  | unlisten channel name => exact .inl rfl
  | take hidle htake =>
    exact .inr ⟨.take, by simp [Dispatch.station, Station.after, hidle, htake]⟩
  | handle hbusy =>
    exact .inr ⟨.finish, by simp [Dispatch.station, Station.after, hbusy]⟩
  | nothing => exact .inl rfl

/-- A step leaves the worker in good order. -/
theorem Step.orderly (h : Step d m d') (hd : d.station.Orderly) : d'.station.Orderly := by
  obtain heq | ⟨move, heq⟩ := h.station
  · exact heq ▸ hd
  · exact heq ▸ hd.after move

/-- So the queue is in a state that its own moves lead to. -/
theorem exists_station_run (config : Config) (now : Int) (moves : List Move) :
    ∃ ms, ((start config now).run moves).station =
      (Station.start config.cache.eventQueueName).run ms := by
  refine run_induction
    (I := fun d => ∃ ms, d.station = (Station.start config.cache.eventQueueName).run ms)
    (fun m _ d d' hstep => ?_) ⟨[], rfl⟩
  rintro ⟨ms, hms⟩
  obtain heq | ⟨move, heq⟩ := hstep.station
  · exact ⟨ms, heq.trans hms⟩
  · refine ⟨ms ++ [move], ?_⟩
    rw [heq, hms, Station.run_append]
    rfl

/-- After any moves the worker is in good order. -/
theorem orderly_run (config : Config) (now : Int) (moves : List Move) :
    ((start config now).run moves).station.Orderly := by
  obtain ⟨ms, hms⟩ := exists_station_run config now moves
  exact hms ▸ Station.orderly_run config.cache.eventQueueName ms

/-- After any moves the log tells what is pending. -/
theorem settled_run (config : Config) (now : Int) (moves : List Move) :
    ((start config now).run moves).station.Settled Event.key := by
  obtain ⟨ms, hms⟩ := exists_station_run config now moves
  exact hms ▸ Station.settled_run Event.keyed config.cache.eventQueueName ms

/-! ### Draining -/

variable {s : Session} {q : Queue Event}

/-- With nothing pending, draining does nothing. -/
theorem run_drainEvents_of_none (limit : Nat) (htake : s.storage.eventQueue.take? = none) :
    (drainEvents limit).run s = (.ok (), s) := by
  cases limit with
  | zero => rfl
  | succ limit =>
    unfold drainEvents
    rw [run_bind_ok (run_get s)]
    simp only [htake]
    rfl

/-- Draining handles the first event and goes on. -/
theorem run_drainEvents_of_some (limit : Nat) (htake : s.storage.eventQueue.take? = some (e, q)) :
    (drainEvents (limit + 1)).run s = (drainEvents limit).run
      { s with
        storage := { s.storage with eventQueue := q.finish }
        notices := s.notices ++ (s.storage.listeners.of e).map fun name => (name, .event e) } := by
  rw [drainEvents, run_bind_ok (run_get s)]
  simp only [htake]
  rfl

/-- **Draining the event queue** is to take and to handle in turn. -/
theorem run_drainEvents (limit : Nat) (hidle : d.running = none) :
    ((drainEvents limit).run d.session).2 =
      (d.run (List.replicate limit [Move.take, Move.handle]).flatten).session := by
  induction limit generalizing d with
  | zero => rfl
  | succ limit ih =>
    rw [List.replicate_succ, List.flatten_cons, run_append]
    cases htake : d.session.storage.eventQueue.take? with
    | none =>
      have hstays : d.run [.take, .handle] = d := by simp [run, after, hidle, htake]
      rw [hstays, ← ih hidle, run_drainEvents_of_none _ htake, run_drainEvents_of_none _ htake]
    | some taken =>
      obtain ⟨e, q⟩ := taken
      have hhandled : d.run [.take, .handle] = (d.after .take).after .handle := rfl
      rw [hhandled, after_take hidle htake, after_handle rfl, ← ih rfl,
        run_drainEvents_of_some limit htake]

end Dispatch

end Storage
end StatusCache
