/-
# The accounting of a queue

A queue counts what is pending or running, apart from the list of what is pending. Producers, the
worker and whoever stops the queue take their steps in any order (`Traffic`), and few of these are
taken at once: a producer is let in, and inserts its item later; the worker sees that the queue runs,
takes an item later, and finishes it later still; a queue is closed first and cleared afterwards. So
items are inserted, and even taken, in a queue that was closed in the meantime.

The count is always that of the items that are pending, running, or were dropped when the queue was
cleared (`Accounted`). Nothing is dropped before the queue is closed, so until then the count is zero
exactly when nothing is pending or running.
-/

import StatusCache.Event
import StatusCache.Proofs.Queue.Station

namespace StatusCache
namespace Queue

variable {α σ : Type}

/-! ### Producers, the worker, and stopping -/

/-- What the worker of a queue has got to. -/
inductive Worker (α : Type)
  /-- It is to look whether the queue runs. -/
  | idle
  /-- It saw that the queue runs, and is to take an item. -/
  | ready
  | busy (item : α)
  /-- It saw that the queue is closed. -/
  | gone
deriving DecidableEq, Repr

/-- The item that the worker runs. -/
def Worker.running : Worker α → Option α
  | busy item => some item
  | _ => none

/-- A queue amid its producers, with its worker. -/
structure Traffic (α : Type) where
  queue : Queue α
  /-- The items of producers that were let in and have not inserted them, the longest first. -/
  admitted : List α := []
  worker : Worker α := .idle
  /-- What was pending when the queue was cleared. -/
  dropped : List α := []

namespace Traffic

/-- The single steps of producers, of the worker, and of whoever stops the queue. -/
inductive Move (α : Type)
  /-- A producer finds the queue running, or gives up. -/
  | enter (item : α)
  /-- One of the producers that were let in inserts its item. -/
  | insert (index : Nat)
  /-- The worker looks whether the queue runs. -/
  | look
  | take
  /-- The worker is done with its item, which has failed or not. -/
  | finish (failed : Bool)
  | close
  | clear
deriving DecidableEq, Repr

/-- The item that the worker runs. -/
def running (t : Traffic α) : Option α := t.worker.running

/-- A new queue, without producers. -/
def start (name : String) : Traffic α where
  queue := { name := name }

/-- A queue without producers, between two items. -/
def resting (q : Queue α) : Traffic α where
  queue := q

section Moves

variable [Coalesce α]

/-- The traffic after a move. A move that is not possible changes nothing. -/
def after (t : Traffic α) : Move α → Traffic α
  | .enter item => if t.queue.stopped then t else { t with admitted := t.admitted ++ [item] }
  | .insert index =>
    match t.admitted[index]? with
    | some item =>
      { t with queue := t.queue.enqueue item, admitted := t.admitted.eraseIdx index }
    | none => t
  | .look =>
    match t.worker with
    | .idle => { t with worker := if t.queue.stopped then .gone else .ready }
    | _ => t
  | .take =>
    match t.worker, t.queue.pending with
    | .ready, [] => { t with worker := .idle }
    | .ready, item :: rest =>
      { t with queue := { t.queue with pending := rest }, worker := .busy item }
    | _, _ => t
  | .finish _ =>
    match t.worker with
    | .busy _ => { t with queue := t.queue.finish, worker := .idle }
    | _ => t
  | .close => { t with queue := { t.queue with stopped := true } }
  | .clear =>
    if t.queue.stopped then
      { t with
        queue := { t.queue with pending := [] }
        dropped := t.dropped ++ t.queue.pending }
    else t

/-- The traffic after moves, in their order. -/
def run (t : Traffic α) (moves : List (Move α)) : Traffic α := moves.foldl after t

/-- Moves one after the other are one run. -/
theorem run_append (t : Traffic α) (moves more : List (Move α)) :
    t.run (moves ++ more) = (t.run moves).run more := List.foldl_append

/-! What a queue does at once is done in such steps, if nobody comes in between. -/

/-- To push is to enter and to insert. -/
theorem run_push {t : Traffic α} (hadmitted : t.admitted = []) (item : α) :
    t.run [.enter item, .insert 0] = { t with queue := t.queue.push item } := by
  obtain ⟨q, admitted, worker, dropped⟩ := t
  obtain rfl : admitted = [] := hadmitted
  by_cases hstopped : q.stopped <;> simp [run, after, push, hstopped]

/-- To take is to look and to take what was seen. -/
theorem run_take {q q' : Queue α} {item : α} (htake : q.take? = some (item, q')) :
    (resting q).run [.look, .take] = { resting q' with worker := .busy item } := by
  unfold take? at htake
  split at htake
  · cases htake
  next hstopped =>
    split at htake
    · cases htake
    next hpending =>
      obtain ⟨rfl, rfl⟩ := Prod.mk.inj (Option.some.inj htake)
      simp [run, after, resting, hstopped, hpending]

/-- To shut down is to close and to clear. -/
theorem run_shutdown {t : Traffic α} (hlive : t.queue.stopped = false) :
    (t.run [.close, .clear]).queue = t.queue.shutdown := by
  simp [run, after, shutdown, hlive]

/-- What a move can do. -/
inductive Step (t : Traffic α) : Move α → Traffic α → Prop
  | enter {item : α} (hlive : t.queue.stopped = false) :
    Step t (.enter item) { t with admitted := t.admitted ++ [item] }
  | insert {index : Nat} {item : α} (hitem : t.admitted[index]? = some item) :
    Step t (.insert index)
      { t with queue := t.queue.enqueue item, admitted := t.admitted.eraseIdx index }
  | look (hidle : t.worker = .idle) :
    Step t .look { t with worker := if t.queue.stopped then .gone else .ready }
  | rest (hready : t.worker = .ready) (hpending : t.queue.pending = []) :
    Step t .take { t with worker := .idle }
  | take {item : α} {rest : List α} (hready : t.worker = .ready)
    (hpending : t.queue.pending = item :: rest) :
    Step t .take { t with queue.pending := rest, worker := .busy item }
  | finish {item : α} (failed : Bool) (hbusy : t.worker = .busy item) :
    Step t (.finish failed) { t with queue := t.queue.finish, worker := .idle }
  | close : Step t .close { t with queue.stopped := true }
  | clear (hstopped : t.queue.stopped) :
    Step t .clear { t with queue.pending := [], dropped := t.dropped ++ t.queue.pending }
  | nothing {m : Move α} (hm : m ≠ .close) : Step t m t

/-- A move that changes nothing is a step, unless it closes the queue. -/
theorem Step.of_after_eq {t : Traffic α} {m : Move α} (hm : m ≠ .close) (h : t.after m = t) :
    Step t m (t.after m) := by
  rw [h]
  exact .nothing hm

/-- Every move is a step. -/
theorem step_after (t : Traffic α) (m : Move α) : Step t m (t.after m) := by
  -- A move that is not possible now changes nothing, which is a step of its own.
  cases m with
  | enter item =>
    by_cases hstopped : t.queue.stopped
    · exact .of_after_eq (by simp) (if_pos hstopped)
    · rw [after, if_neg hstopped]
      exact .enter (by simpa using hstopped)
  | insert index =>
    cases hitem : t.admitted[index]? with
    | none => exact .of_after_eq (by simp) (by simp [after, hitem])
    | some item =>
      simp only [after, hitem]
      exact .insert hitem
  | look =>
    cases hworker : t.worker with
    | idle =>
      simp only [after, hworker]
      exact .look hworker
    | _ => exact .of_after_eq (by simp) (by simp only [after, hworker])
  | take =>
    cases hworker : t.worker with
    | ready =>
      cases hpending : t.queue.pending with
      | nil =>
        simp only [after, hworker, hpending]
        exact .rest hworker hpending
      | cons item rest =>
        simp only [after, hworker, hpending]
        exact .take hworker hpending
    | _ => exact .of_after_eq (by simp) (by simp only [after, hworker])
  | finish failed =>
    cases hworker : t.worker with
    | busy item =>
      simp only [after, hworker]
      exact .finish failed hworker
    | _ => exact .of_after_eq (by simp) (by simp only [after, hworker])
  | close => exact .close
  | clear =>
    by_cases hstopped : t.queue.stopped
    · rw [after, if_pos hstopped]
      exact .clear hstopped
    · exact .of_after_eq (by simp) (if_neg hstopped)

/-- **What every move keeps holds after every run.** -/
theorem run_induction {I : Traffic α → Prop} {moves : List (Move α)}
    (hstep : ∀ m ∈ moves, ∀ t t', Step t m t' → I t → I t') {t : Traffic α} (ht : I t) :
    I (t.run moves) := by
  induction moves generalizing t with
  | nil => exact ht
  | cons m moves ih =>
    rw [List.forall_mem_cons] at hstep
    exact ih hstep.2 (hstep.1 t (t.after m) (step_after t m) ht)

/-! ### What is counted -/

/-- The count goes with the length of what is pending, whether an item is appended or absorbed. -/
theorem inFlight_enqueue (q : Queue α) (item : α) :
    (q.enqueue item).inFlight + q.pending.length =
      q.inFlight + (q.enqueue item).pending.length := by
  rcases enqueue_cases q item with ⟨h, -⟩ | ⟨front, p, back, p', hsplit, -, h⟩ <;> rw [h]
  · simp only [List.length_append, List.length_singleton]
    omega
  · simp only [hsplit, List.length_append, List.length_cons]

/-- What is counted is pending, running or dropped, and nothing is dropped while the queue runs. -/
structure Accounted (t : Traffic α) : Prop where
  inFlight_eq :
    t.queue.inFlight = t.queue.pending.length + t.running.toList.length + t.dropped.length
  dropped_eq : t.queue.stopped = false → t.dropped = []

omit [Coalesce α] in
/-- At the start there is nothing to account for. -/
theorem accounted_start (name : String) : (start name : Traffic α).Accounted := ⟨rfl, fun _ => rfl⟩

/-- **Every move keeps the count right.** -/
theorem Step.accounted {t t' : Traffic α} {m : Move α} (h : Step t m t') (ht : t.Accounted) :
    t'.Accounted := by
  obtain ⟨hcount, hdropped⟩ := ht
  -- The count moves with the pending items, with the running one, and with what a shutdown drops.
  cases h with
  | enter => exact ⟨hcount, hdropped⟩
  | @insert index item hitem =>
    have hinsert := inFlight_enqueue t.queue item
    refine ⟨?_, fun hlive => hdropped (Station.stopped_enqueue t.queue item ▸ hlive)⟩
    change (t.queue.enqueue item).inFlight =
      (t.queue.enqueue item).pending.length + t.running.toList.length + t.dropped.length
    omega
  | look hidle =>
    refine ⟨?_, hdropped⟩
    rw [hcount]
    simp only [running, hidle]
    split <;> rfl
  | rest hready hpending =>
    simp only [running, hready] at hcount
    exact ⟨hcount, hdropped⟩
  | take hready hpending =>
    refine ⟨?_, hdropped⟩
    simp only [running, hready, hpending, Worker.running, List.length_cons, Option.toList_none,
      Option.toList_some, List.length_nil] at hcount ⊢
    omega
  | finish failed hbusy =>
    refine ⟨?_, hdropped⟩
    simp only [running, hbusy, Worker.running, Queue.finish, List.length_nil, List.length_cons,
      Option.toList_none, Option.toList_some] at hcount ⊢
    omega
  | close => exact ⟨hcount, fun hlive => by cases hlive⟩
  | clear hstopped =>
    refine ⟨?_, fun hlive => by simp [hstopped] at hlive⟩
    simp only [running, List.length_append, List.length_nil] at hcount ⊢
    omega
  | nothing => exact ⟨hcount, hdropped⟩

/-- A queue runs until it is closed. -/
theorem Step.stopped {t t' : Traffic α} {m : Move α} (h : Step t m t') (hm : m ≠ .close) :
    t'.queue.stopped = t.queue.stopped := by
  cases h with
  | close => exact absurd rfl hm
  | insert => exact Station.stopped_enqueue t.queue _
  | _ => rfl

/-- Only closing stops a queue. -/
theorem stopped_run {t : Traffic α} {moves : List (Move α)} (hmoves : .close ∉ moves) :
    (t.run moves).queue.stopped = t.queue.stopped :=
  run_induction (I := fun t' => t'.queue.stopped = t.queue.stopped)
    (fun _ hm _ _ hstep ht => (hstep.stopped fun heq => hmoves (heq ▸ hm)).trans ht) rfl

/-- After any moves everything is accounted for. -/
theorem accounted_run {t : Traffic α} (ht : t.Accounted) (moves : List (Move α)) :
    (t.run moves).Accounted :=
  run_induction (fun _ _ _ _ hstep ht => hstep.accounted ht) ht

/-- **The count is right in every interleaving.** It is never less than the number of the items that
are pending or running, and that number exactly until the queue is closed. Whatever the worker
finishes was counted, so finishing it takes one off and never wraps around. Who waits for the queue
to be idle, and is not let go because it was closed, finds nothing pending and nothing running. -/
theorem inFlight_accounted (name : String) (moves : List (Move α)) :
    let t := (start name).run moves
    t.queue.pending.length + t.running.toList.length ≤ t.queue.inFlight ∧
      (.close ∉ moves → t.queue.inFlight = t.queue.pending.length + t.running.toList.length) ∧
      (∀ failed, t.running.isSome →
        (t.after (.finish failed)).queue.inFlight + 1 = t.queue.inFlight) ∧
      (.close ∉ moves → (t.queue.isIdle ↔ t.queue.pending = [] ∧ t.running = none)) := by
  intro t
  have haccounted : t.Accounted := accounted_run (accounted_start name) moves
  have hcount := haccounted.inFlight_eq
  have hexact : .close ∉ moves → t.queue.stopped = false ∧
      t.queue.inFlight = t.queue.pending.length + t.running.toList.length := by
    intro hmoves
    have hlive : t.queue.stopped = false := stopped_run hmoves
    rw [haccounted.dropped_eq hlive] at hcount
    exact ⟨hlive, hcount⟩
  refine ⟨by omega, fun hmoves => (hexact hmoves).2, fun failed hrunning => ?_, fun hmoves => ?_⟩
  · obtain ⟨item, hitem⟩ := Option.isSome_iff_exists.1 hrunning
    have hbusy : t.worker = .busy item := by
      unfold running Worker.running at hitem
      split at hitem
      next hworker => rw [hworker, Option.some.inj hitem]
      · cases hitem
    have hafter : (t.after (.finish failed)).queue.inFlight = t.queue.inFlight - 1 := by
      simp only [after, hbusy, Queue.finish]
    rw [hitem] at hcount
    simp only [Option.toList_some, List.length_singleton] at hcount
    omega
  · obtain ⟨hlive, hcount⟩ := hexact hmoves
    simp only [isIdle, hlive, Bool.or_false, decide_eq_true_eq, hcount, Nat.add_eq_zero_iff,
      List.length_eq_zero_iff, Option.toList_eq_nil_iff]

/-- An item whose handler pushes another one onto the same queue: one is running and one pending,
so the count is two, and whoever waits goes on waiting. -/
theorem inFlight_accounted_respawned :
    let opened : Event := .project { project := .project "p", state := .opened }
    let closed : Event := .project { project := .project "p", state := .closed }
    let moves : List (Move Event) :=
      [.enter opened, .insert 0, .look, .take, .enter closed, .insert 0]
    let t := (start "events").run moves
    t.running = some opened ∧ t.queue.pending = [closed] ∧ t.queue.inFlight = 2 ∧
      t.queue.isIdle = false ∧ (t.after (.finish true)).queue.inFlight = 1 := by
  intro opened closed moves t
  have hrunning : t.running = some opened := by decide
  have hpending : t.queue.pending = [closed] := by decide
  obtain ⟨-, hexact, hfinish, hidle⟩ := inFlight_accounted "events" moves
  have hcount : t.queue.inFlight = 2 := by
    rw [hexact (by decide), hrunning, hpending]
    rfl
  refine ⟨hrunning, hpending, hcount, ?_, ?_⟩
  · rw [Bool.eq_false_iff, ne_eq, hidle (by decide), hpending]
    simp
  · have hafter : (t.after (.finish true)).queue.inFlight + 1 = t.queue.inFlight :=
      hfinish true (by rw [hrunning]; rfl)
    omega

/-- What was dropped stays counted. Here a producer that was let in before the queue was closed
inserts its item after it was cleared. -/
example :
    let opened : Event := .project { project := .project "p", state := .opened }
    let closed : Event := .project { project := .project "p", state := .closed }
    let t := (start "events").run
      [.enter opened, .enter closed, .insert 0, .close, .clear, .insert 0]
    t.queue.pending = [closed] ∧ t.dropped = [opened] ∧ t.queue.inFlight = 2 := by
  decide

/-! ### Draining -/

/-- To push items is to enter and insert each of them. -/
theorem run_pushes {t : Traffic α} (hadmitted : t.admitted = []) (items : List α) :
    t.run (items.flatMap fun item => [.enter item, .insert 0]) =
      { t with queue := items.foldl push t.queue } := by
  induction items generalizing t with
  | nil => rfl
  | cons item items ih =>
    rw [List.flatMap_cons, run_append, run_push hadmitted]
    exact ih (t := { t with queue := t.queue.push item }) hadmitted

/-- **Letting the worker run is one of the interleavings**, whatever its handler pushes. -/
theorem exists_run_drain (handle : α → σ → List α × σ) (limit : Nat) (q : Queue α) (s : σ) :
    ∃ moves, (resting q).run moves = resting (drain handle limit q s).1 := by
  induction limit generalizing q s with
  | zero => exact ⟨[], rfl⟩
  | succ limit ih =>
    cases htake : q.take? with
    | none => exact ⟨[], by rw [drain, htake]; rfl⟩
    | some taken =>
      obtain ⟨item, q'⟩ := taken
      obtain ⟨moves, hmoves⟩ := ih ((handle item s).1.foldl push q').finish (handle item s).2
      refine ⟨[.look, .take] ++ ((handle item s).1.flatMap fun item => [.enter item, .insert 0]) ++
        .finish false :: moves, ?_⟩
      rw [run_append, run_append, run_take htake, run_pushes rfl, drain, htake]
      exact hmoves

/-- Draining leaves the count right. -/
theorem accounted_drain (handle : α → σ → List α × σ) (limit : Nat) {q : Queue α}
    (hq : (resting q).Accounted) (s : σ) : (resting (drain handle limit q s).1).Accounted := by
  obtain ⟨moves, hmoves⟩ := exists_run_drain handle limit q s
  rw [← hmoves]
  exact accounted_run hq moves

end Moves
end Traffic
end Queue
end StatusCache
