/-
# A queue and its worker

Producers push items, and one worker takes them one at a time and finishes each before the next. The
two interleave in any way: a station goes through a list of moves (`Station.run`), a move that is
not possible changes nothing, and a log keeps what has happened.

A push appends the item, or a pending item absorbs it: the new one is dropped for an equal one or
folded into one that can take it (`enqueue_cases`). Items go by keys if a pending item absorbs
exactly the items of its own key (`Keyed`). Then the log alone tells what is pending
(`Station.Settled`): of each key at most one item, folded of everything that was pushed of that key
since the worker last took one (`waiting`), and the items stand in the order in which the first of
their parts were pushed.
-/

import StatusCache.Queue
import Mathlib.Data.List.Nodup

namespace StatusCache
namespace Queue

variable {α κ : Type}

/-! ### Pushing -/

section Pushing

variable [Coalesce α]

/-- One pending item stands for itself and for another: that is dropped for it, or folded into
it. -/
inductive Absorbs : α → α → α → Prop
  | skip {a b : α} (hskip : Coalesce.canSkip b) (hsame : Coalesce.same a b) : Absorbs a b a
  | merge {a b : α} (h : Coalesce.canMerge a b) : Absorbs a b (Coalesce.merge a b)

/-- An item is folded into one that it can be merged with. -/
theorem fold?_eq_some {item : α} {ps ps' : List α} (h : fold? item ps = some ps') :
    ∃ front p back, ps = front ++ p :: back ∧ Coalesce.canMerge p item ∧
      ps' = front ++ Coalesce.merge p item :: back := by
  induction ps generalizing ps' with
  | nil => cases h
  | cons p ps ih =>
    unfold fold? at h
    split at h
    next hmerge =>
      obtain rfl := Option.some.inj h
      exact ⟨[], p, ps, rfl, hmerge, rfl⟩
    · obtain ⟨rest, hrest, rfl⟩ := Option.map_eq_some_iff.1 h
      obtain ⟨front, p', back, rfl, hmerge, rfl⟩ := ih hrest
      exact ⟨p :: front, p', back, rfl, hmerge, rfl⟩

/-- If an item is not folded, it can be merged with none. -/
theorem fold?_eq_none {item : α} {ps : List α} (h : fold? item ps = none) :
    ∀ p ∈ ps, ¬Coalesce.canMerge p item := by
  induction ps with
  | nil => simp
  | cons p ps ih =>
    unfold fold? at h
    split at h
    · cases h
    next hmerge =>
      rw [List.forall_mem_cons]
      exact ⟨hmerge, ih (Option.map_eq_none_iff.1 h)⟩

/-- **A push appends an item that nothing pending absorbs**, or one pending item absorbs it and
keeps its place. -/
theorem enqueue_cases (q : Queue α) (item : α) :
    (q.enqueue item = { q with pending := q.pending ++ [item], inFlight := q.inFlight + 1 } ∧
      ∀ p ∈ q.pending, ∀ p', ¬Absorbs p item p') ∨
    ∃ front p back p', q.pending = front ++ p :: back ∧ Absorbs p item p' ∧
      q.enqueue item = { q with pending := front ++ p' :: back } := by
  unfold enqueue
  split
  next hskip =>
    rw [Bool.and_eq_true, List.any_eq_true] at hskip
    obtain ⟨hskip, p, hp, hsame⟩ := hskip
    obtain ⟨front, back, hsplit⟩ := List.append_of_mem hp
    exact .inr ⟨front, p, back, p, hsplit, .skip hskip hsame, by rw [← hsplit]⟩
  next hkept =>
    split
    next pending hfold =>
      obtain ⟨front, p, back, hsplit, hmerge, rfl⟩ := fold?_eq_some hfold
      exact .inr ⟨front, p, back, _, hsplit, .merge hmerge, rfl⟩
    next hfold =>
      refine .inl ⟨rfl, fun p hp p' habsorbs => ?_⟩
      cases habsorbs with
      | skip hskip hsame =>
        refine hkept ?_
        rw [Bool.and_eq_true, List.any_eq_true]
        exact ⟨hskip, p, hp, hsame⟩
      | merge hmerge => exact fold?_eq_none hfold p hp hmerge

omit [Coalesce α] in
/-- The item that is taken is the first one pending. -/
theorem pending_of_take {q q' : Queue α} {item : α} (h : q.take? = some (item, q')) :
    q.pending = item :: q'.pending := by
  unfold take? at h
  split at h
  · cases h
  · split at h
    · cases h
    next hpending =>
      obtain ⟨rfl, rfl⟩ := Prod.mk.inj (Option.some.inj h)
      exact hpending

/-- An item goes by a key: it is absorbed by every pending item of its key and by no other, and
absorbing does not change the key. -/
structure Keyed (key : α → κ) : Prop where
  absorbs : ∀ {a b : α}, key a = key b → ∃ c, Absorbs a b c
  key_eq : ∀ {a b c : α}, Absorbs a b c → key a = key b ∧ key c = key a

/-- An item is what became of the first of some items when it absorbed the others in turn. -/
inductive Folded : List α → α → Prop
  | single (a : α) : Folded [a] a
  | absorb {parts : List α} {a b c : α} (h : Folded parts a) (hc : Absorbs a b c) :
      Folded (parts ++ [b]) c

/-- What is folded has parts. -/
theorem Folded.ne_nil {parts : List α} {a : α} (h : Folded parts a) : parts ≠ [] := by
  cases h <;> simp

/-- All parts have the key of what they are folded to. -/
theorem Folded.key_eq {key : α → κ} (hkey : Keyed key) {parts : List α} {a : α}
    (h : Folded parts a) : ∀ p ∈ parts, key p = key a := by
  induction h with
  | single a => simp
  | absorb h hc ih =>
    obtain ⟨hab, hca⟩ := hkey.key_eq hc
    simp only [List.mem_append, List.mem_singleton]
    rintro p (hp | rfl)
    · rw [ih p hp, hca]
    · rw [← hab, hca]

end Pushing

/-! ### What has happened -/

/-- What happens to an item: it is pushed; an item is taken by the worker, and finished. -/
inductive Happening (α : Type)
  | pushed (item : α)
  | taken (item : α)
  | finished (item : α)
deriving DecidableEq, Repr

/-- The items pushed in a log that has the newest happening first, the oldest first. -/
def pushedIn : List (Happening α) → List α
  | [] => []
  | .pushed item :: older => pushedIn older ++ [item]
  | .taken _ :: older => pushedIn older
  | .finished _ :: older => pushedIn older

/-- The items taken, the oldest first. -/
def takenIn : List (Happening α) → List α
  | [] => []
  | .taken item :: older => takenIn older ++ [item]
  | .pushed _ :: older => takenIn older
  | .finished _ :: older => takenIn older

/-- The items finished, the oldest first. -/
def finishedIn : List (Happening α) → List α
  | [] => []
  | .finished item :: older => finishedIn older ++ [item]
  | .pushed _ :: older => finishedIn older
  | .taken _ :: older => finishedIn older

/-- An item was taken if the log says so. -/
theorem mem_takenIn {item : α} {log : List (Happening α)} :
    item ∈ takenIn log ↔ .taken item ∈ log := by
  induction log with
  | nil => simp [takenIn]
  | cons x log ih => cases x <;> simp [takenIn, ih, or_comm]

/-- An item was finished if the log says so. -/
theorem mem_finishedIn {item : α} {log : List (Happening α)} :
    item ∈ finishedIn log ↔ .finished item ∈ log := by
  induction log with
  | nil => simp [finishedIn]
  | cons x log ih => cases x <;> simp [finishedIn, ih, or_comm]

section Waiting

variable [DecidableEq κ]

/-- The items of a key that were pushed since the worker last took one, the oldest first, each with
the moment at which that happened. The log has the newest first, and the moment is the number of
happenings before. -/
def waiting (key : α → κ) (k : κ) : List (Happening α) → List (Nat × α)
  | [] => []
  | .pushed item :: older =>
    if key item = k then waiting key k older ++ [(older.length, item)] else waiting key k older
  | .taken item :: older => if key item = k then [] else waiting key k older
  | .finished _ :: older => waiting key k older

variable {key : α → κ} {k k' : κ} {item : α} {log older : List (Happening α)}

/-- An item that is pushed waits under its key. -/
theorem waiting_pushed (hk : key item = k) :
    waiting key k (.pushed item :: log) = waiting key k log ++ [(log.length, item)] := if_pos hk

/-- An item that is pushed waits under no other key. -/
theorem waiting_pushed_of_ne (hk : key item ≠ k) :
    waiting key k (.pushed item :: log) = waiting key k log := if_neg hk

/-- After an item was taken, nothing waits under its key. -/
theorem waiting_taken (hk : key item = k) : waiting key k (.taken item :: log) = [] := if_pos hk

/-- After an item was taken, what waits under other keys still does. -/
theorem waiting_taken_of_ne (hk : key item ≠ k) :
    waiting key k (.taken item :: log) = waiting key k log := if_neg hk

/-- What waits was pushed, at its moment. -/
theorem exists_of_mem_waiting {i : Nat} (h : (i, item) ∈ waiting key k log) :
    ∃ newer older, log = newer ++ .pushed item :: older ∧ older.length = i := by
  induction log with
  | nil => cases h
  | cons x log ih =>
    have hlater : (i, item) ∈ waiting key k log →
        ∃ newer older, x :: log = newer ++ .pushed item :: older ∧ older.length = i := by
      intro hwaits
      obtain ⟨newer, older, rfl, hi⟩ := ih hwaits
      exact ⟨x :: newer, older, rfl, hi⟩
    cases x with
    | pushed b =>
      unfold waiting at h
      split at h
      · rcases List.mem_append.1 h with h | h
        · exact hlater h
        · obtain ⟨rfl, rfl⟩ := Prod.mk.inj (List.mem_singleton.1 h)
          exact ⟨[], log, rfl, rfl⟩
      · exact hlater h
    | taken b =>
      unfold waiting at h
      split at h
      · cases h
      · exact hlater h
    | finished b => exact hlater h

/-- The moment at which the first of what waits was pushed. -/
def firstMoment (key : α → κ) (k : κ) (log : List (Happening α)) : Option Nat :=
  (waiting key k log).head?.map Prod.fst

/-- Both keys have something waiting, and the first of them had it sooner. -/
def Sooner (key : α → κ) (log : List (Happening α)) (k k' : κ) : Prop :=
  ∃ i j, firstMoment key k log = some i ∧ firstMoment key k' log = some j ∧ i < j

/-- The first push of what waits lies in the past. -/
theorem lt_of_firstMoment {i : Nat} (h : firstMoment key k log = some i) : i < log.length := by
  obtain ⟨⟨j, item⟩, hhead, rfl⟩ := Option.map_eq_some_iff.1 h
  obtain ⟨newer, older, rfl, rfl⟩ := exists_of_mem_waiting (List.mem_of_head? hhead)
  rw [List.length_append, List.length_cons]
  omega

/-- Pushing more does not change what came first. -/
theorem firstMoment_pushed {i : Nat} (h : firstMoment key k log = some i) :
    firstMoment key k (.pushed item :: log) = some i := by
  by_cases hk : key item = k
  · unfold firstMoment at h ⊢
    rw [waiting_pushed hk]
    cases hw : waiting key k log with
    | nil => simp [hw] at h
    | cons first rest => simpa [hw] using h
  · unfold firstMoment at h ⊢
    rwa [waiting_pushed_of_ne hk]

end Waiting

/-! ### Stations -/

/-- A queue, what its worker is busy with, and what has happened, the newest first. -/
structure Station (α : Type) where
  queue : Queue α
  running : Option α := none
  log : List (Happening α) := []

/-- What producers and the worker can do. -/
inductive Move (α : Type)
  | push (item : α)
  | take
  | finish
deriving DecidableEq, Repr

namespace Station

/-- A new queue, with an idle worker. -/
def start (name : String) : Station α where
  queue := { name := name }

/-- Nothing is pending, and the worker is idle. -/
def IsDrained (s : Station α) : Prop := s.queue.pending = [] ∧ s.running = none

variable [Coalesce α]

/-- The station after a move. A worker that is busy takes nothing, and an idle one finishes
nothing. -/
def after (s : Station α) : Move α → Station α
  | .push item => { s with queue := s.queue.push item, log := .pushed item :: s.log }
  | .take =>
    match s.running, s.queue.take? with
    | none, some (item, q) => { queue := q, running := some item, log := .taken item :: s.log }
    | _, _ => s
  | .finish =>
    match s.running with
    | some item => { queue := s.queue.finish, running := none, log := .finished item :: s.log }
    | none => s

/-- The station after moves, in their order. -/
def run (s : Station α) (moves : List (Move α)) : Station α := moves.foldl after s

/-- Moves one after the other are one run. -/
theorem run_append (s : Station α) (moves more : List (Move α)) :
    s.run (moves ++ more) = (s.run moves).run more := List.foldl_append

/-- **All that a move can do** to a station whose queue was not shut down. -/
theorem after_cases {s : Station α} (hlive : s.queue.stopped = false) (m : Move α) :
    (∃ item, m = .push item ∧
      s.after m = { s with queue := s.queue.enqueue item, log := .pushed item :: s.log }) ∨
    (∃ item rest, m = .take ∧ s.running = none ∧ s.queue.pending = item :: rest ∧ s.after m =
      { queue := { s.queue with pending := rest }, running := some item,
        log := .taken item :: s.log }) ∨
    (∃ item, m = .finish ∧ s.running = some item ∧ s.after m =
      { queue := s.queue.finish, running := none, log := .finished item :: s.log }) ∨
    s.after m = s := by
  cases m with
  | push item => exact .inl ⟨item, rfl, by simp [after, push, hlive]⟩
  | take =>
    cases hrunning : s.running with
    | some item => exact .inr (.inr (.inr (by simp [after, hrunning])))
    | none =>
      cases hpending : s.queue.pending with
      | nil => exact .inr (.inr (.inr (by simp [after, hrunning, take?, hlive, hpending])))
      | cons item rest =>
        exact .inr (.inl ⟨item, rest, rfl, rfl, rfl, by
          simp [after, hrunning, take?, hlive, hpending]⟩)
  | finish =>
    cases hrunning : s.running with
    | some item => exact .inr (.inr (.inl ⟨item, rfl, rfl, by simp [after, hrunning]⟩))
    | none => exact .inr (.inr (.inr (by simp [after, hrunning])))

/-- Enqueuing does not stop a queue. -/
theorem stopped_enqueue (q : Queue α) (item : α) : (q.enqueue item).stopped = q.stopped := by
  rcases enqueue_cases q item with ⟨h, -⟩ | ⟨_, _, _, _, -, -, h⟩ <;> rw [h]

/-- **What every move keeps holds after every run.** -/
theorem run_induction {I : Station α → Prop} (hstep : ∀ s m, I s → I (s.after m))
    {s : Station α} (hs : I s) (moves : List (Move α)) : I (s.run moves) := by
  induction moves generalizing s with
  | nil => exact hs
  | cons m moves ih => exact ih (hstep s m hs)

/-! ### The worker -/

/-- The queue was not shut down, and the worker does one thing after the other. -/
structure Orderly (s : Station α) : Prop where
  live : s.queue.stopped = false
  taken_eq : takenIn s.log = finishedIn s.log ++ s.running.toList
  /-- What was taken has been finished since, unless it is running. -/
  finished : ∀ newer item older, s.log = newer ++ .taken item :: older →
    .finished item ∈ newer ∨ s.running = some item

omit [Coalesce α] in
/-- A worker starts in good order. -/
theorem orderly_start (name : String) : (start name : Station α).Orderly where
  live := rfl
  taken_eq := rfl
  finished newer item older h := by simp [start] at h

/-- A move leaves a worker in good order. -/
theorem Orderly.after {s : Station α} (h : s.Orderly) (m : Move α) : (s.after m).Orderly := by
  have hfinished := h.finished
  have htaken := h.taken_eq
  rcases after_cases h.live m with ⟨item, -, heq⟩ | ⟨item, rest, -, hidle, -, heq⟩ |
    ⟨item, -, hbusy, heq⟩ | heq <;> rw [heq]
  · refine ⟨(stopped_enqueue _ _).trans h.live, ?_, fun newer a older hlog => ?_⟩
    · exact htaken
    · obtain ⟨rfl, hnil⟩ | ⟨newer', rfl, hlog'⟩ := List.cons_eq_append_iff.1 hlog
      · cases hnil
      · exact (hfinished newer' a older hlog').imp_left (List.mem_cons_of_mem _)
  · refine ⟨h.live, ?_, fun newer a older hlog => ?_⟩
    · simpa [takenIn, finishedIn, hidle] using htaken
    · obtain ⟨rfl, hcons⟩ | ⟨newer', rfl, hlog'⟩ := List.cons_eq_append_iff.1 hlog
      · cases hcons
        exact .inr rfl
      · rcases hfinished newer' a older hlog' with hmem | hrunning
        · exact .inl (List.mem_cons_of_mem _ hmem)
        · simp [hidle] at hrunning
  · refine ⟨h.live, ?_, fun newer a older hlog => ?_⟩
    · simpa [takenIn, finishedIn, hbusy] using htaken
    · obtain ⟨rfl, hnil⟩ | ⟨newer', rfl, hlog'⟩ := List.cons_eq_append_iff.1 hlog
      · cases hnil
      · refine .inl ?_
        rcases hfinished newer' a older hlog' with hmem | hrunning
        · exact List.mem_cons_of_mem _ hmem
        · rw [hbusy, Option.some.injEq] at hrunning
          exact hrunning ▸ List.mem_cons_self
  · exact h

/-- After any moves a worker is in good order. -/
theorem orderly_run (name : String) (moves : List (Move α)) : ((start name).run moves).Orderly :=
  run_induction (fun _ m h => h.after m) (orderly_start name) moves

omit [Coalesce α] in
/-- What the worker is done with or busy with, it has taken. -/
theorem Orderly.taken_mem {s : Station α} (h : s.Orderly) {item : α}
    (hitem : .finished item ∈ s.log ∨ s.running = some item) : .taken item ∈ s.log := by
  rw [← mem_takenIn, h.taken_eq, List.mem_append, mem_finishedIn, Option.mem_toList]
  exact hitem

/-! ### What is pending -/

variable [DecidableEq κ] {key : α → κ} {s : Station α}

/-- Every item that was taken was folded of all that waited for it. -/
def Served (key : α → κ) (log : List (Happening α)) : Prop :=
  ∀ newer item older, log = newer ++ .taken item :: older →
    Folded ((waiting key (key item) older).map Prod.snd) item

/-- What was served at some time was served before. -/
theorem Served.tail {x : Happening α} {log : List (Happening α)} (h : Served key (x :: log)) :
    Served key log :=
  fun newer item older hlog => h (x :: newer) item older (hlog ▸ rfl)

/-- After one more happening all are served, if that takes all that waited. -/
theorem Served.cons {x : Happening α} {log : List (Happening α)} (h : Served key log)
    (hx : ∀ item, x = .taken item → Folded ((waiting key (key item) log).map Prod.snd) item) :
    Served key (x :: log) := by
  intro newer item older hlog
  obtain ⟨rfl, hcons⟩ | ⟨newer', rfl, hlog'⟩ := List.cons_eq_append_iff.1 hlog
  · cases hcons
    exact hx item rfl
  · exact h newer' item older hlog'

/-- What is taken was folded of what was pushed. -/
theorem Served.exists_parts {log : List (Happening α)} (h : Served key log) {a : α}
    (ha : .taken a ∈ log) : ∃ parts, Folded parts a ∧ ∀ p ∈ parts, .pushed p ∈ log := by
  obtain ⟨newer, older, rfl⟩ := List.append_of_mem ha
  refine ⟨_, h newer a older rfl, fun p hp => ?_⟩
  obtain ⟨⟨i, q⟩, hwaits, rfl⟩ := List.mem_map.1 hp
  obtain ⟨later, earlier, rfl, -⟩ := exists_of_mem_waiting hwaits
  simp

/-- What was pushed waits still, or was taken since, as a part of an item. -/
theorem Served.waits_or_taken {newer older : List (Happening α)} {item : α}
    (h : Served key (newer ++ .pushed item :: older)) :
    (older.length, item) ∈ waiting key (key item) (newer ++ .pushed item :: older) ∨
    ∃ a parts, .taken a ∈ newer ∧ Folded parts a ∧ item ∈ parts := by
  induction newer with
  | nil =>
    refine .inl ?_
    rw [List.nil_append, waiting_pushed rfl]
    exact List.mem_append_right _ (List.mem_singleton_self _)
  | cons x newer ih =>
    rcases ih h.tail with hwaits | ⟨a, parts, ha, hparts, hitem⟩
    · cases x with
      | pushed b =>
        refine .inl ?_
        by_cases hb : key b = key item
        · rw [List.cons_append, waiting_pushed hb]
          exact List.mem_append_left _ hwaits
        · rwa [List.cons_append, waiting_pushed_of_ne hb]
      | taken b =>
        by_cases hb : key b = key item
        · refine .inr ⟨b, _, List.mem_cons_self, h [] b _ rfl, ?_⟩
          rw [hb]
          exact List.mem_map_of_mem hwaits
        · rw [List.cons_append, waiting_taken_of_ne hb]
          exact .inl hwaits
      | finished b => exact .inl hwaits
    · exact .inr ⟨a, parts, List.mem_cons_of_mem x ha, hparts, hitem⟩

/-- The log tells what is pending. -/
structure Settled (key : α → κ) (s : Station α) : Prop where
  folded : ∀ a ∈ s.queue.pending, Folded ((waiting key (key a) s.log).map Prod.snd) a
  nothing : ∀ k, k ∉ s.queue.pending.map key → waiting key k s.log = []
  ordered : (s.queue.pending.map key).Pairwise (Sooner key s.log)
  served : Served key s.log

/-- At the start nothing is pending, and nothing happened. -/
theorem settled_start (name : String) : (start name : Station α).Settled key where
  folded a ha := by simp [start] at ha
  nothing _ _ := rfl
  ordered := .nil
  served newer item older h := by simp [start] at h

namespace Settled

/-- **Of each key at most one item is pending.** -/
theorem nodup (h : s.Settled key) : (s.queue.pending.map key).Nodup := by
  refine h.ordered.imp fun {k k'} hsooner heq => ?_
  obtain ⟨i, j, hi, hj, hlt⟩ := heq ▸ hsooner
  rw [hi, Option.some.injEq] at hj
  omega

/-- What is pending shares its key with nothing before or behind it. -/
theorem not_mem_of_split (h : s.Settled key) {p : α} {front back : List α}
    (hsplit : s.queue.pending = front ++ p :: back) :
    key p ∉ front.map key ∧ key p ∉ back.map key := by
  have hnodup := h.nodup
  rw [hsplit, List.map_append, List.map_cons, List.nodup_middle, List.nodup_cons,
    List.mem_append, not_or] at hnodup
  exact hnodup.1

/-- What is pending has a first part. -/
theorem exists_firstMoment (h : s.Settled key) {a : α} (ha : a ∈ s.queue.pending) :
    ∃ i, firstMoment key (key a) s.log = some i := by
  have hne := (h.folded a ha).ne_nil
  unfold firstMoment
  cases hw : waiting key (key a) s.log with
  | nil => simp [hw] at hne
  | cons first rest => exact ⟨first.1, rfl⟩

/-- A new item that is absorbed by none is pending for itself. -/
theorem append (hkey : Keyed key) (h : s.Settled key) {item : α}
    (hnone : ∀ p ∈ s.queue.pending, ∀ p', ¬Absorbs p item p') :
    Settled key { s with
      queue := { s.queue with
        pending := s.queue.pending ++ [item]
        inFlight := s.queue.inFlight + 1 }
      log := .pushed item :: s.log } := by
  -- An item with a key that is pending would have been absorbed.
  have hnew : key item ∉ s.queue.pending.map key := by
    intro hmem
    obtain ⟨p, hp, heq⟩ := List.mem_map.1 hmem
    obtain ⟨p', hp'⟩ := hkey.absorbs heq
    exact hnone p hp p' hp'
  have hwaiting : waiting key (key item) (.pushed item :: s.log) = [(s.log.length, item)] := by
    rw [waiting_pushed rfl, h.nothing _ hnew, List.nil_append]
  refine ⟨fun a ha => ?_, fun k hk => ?_, ?_, h.served.cons (by simp)⟩
  · rcases List.mem_append.1 ha with ha | ha
    · have hne : key item ≠ key a := fun heq => hnew (heq ▸ List.mem_map_of_mem ha)
      rw [waiting_pushed_of_ne hne]
      exact h.folded a ha
    · obtain rfl := List.mem_singleton.1 ha
      rw [hwaiting]
      exact .single a
  · simp only [List.map_append, List.map_cons, List.map_nil, List.mem_append,
      List.mem_singleton, not_or] at hk
    rw [waiting_pushed_of_ne fun heq => hk.2 heq.symm]
    exact h.nothing k hk.1
  · rw [List.map_append, List.pairwise_append]
    refine ⟨h.ordered.imp ?_, List.pairwise_singleton _ _, fun k hk k' hk' => ?_⟩
    · rintro k k' ⟨i, j, hi, hj, hlt⟩
      exact ⟨i, j, firstMoment_pushed hi, firstMoment_pushed hj, hlt⟩
    · obtain ⟨a, ha, rfl⟩ := List.mem_map.1 hk
      obtain rfl : k' = key item := by simpa using hk'
      obtain ⟨i, hi⟩ := h.exists_firstMoment ha
      refine ⟨i, s.log.length, firstMoment_pushed hi, ?_, lt_of_firstMoment hi⟩
      rw [firstMoment, hwaiting]
      rfl

/-- A new item that is absorbed is pending with the others of its key. -/
theorem absorb (hkey : Keyed key) (h : s.Settled key) {item p p' : α} {front back : List α}
    (hsplit : s.queue.pending = front ++ p :: back) (habsorbs : Absorbs p item p') :
    Settled key { s with
      queue := { s.queue with pending := front ++ p' :: back }
      log := .pushed item :: s.log } := by
  obtain ⟨hp, hp'⟩ := hkey.key_eq habsorbs
  have hkeys : (front ++ p' :: back).map key = s.queue.pending.map key := by
    simp [hsplit, hp']
  have hmem : p ∈ s.queue.pending := by simp [hsplit]
  refine ⟨fun a ha => ?_, fun k hk => ?_, ?_, h.served.cons (by simp)⟩
  -- Pending items have different keys, so the others are not touched.
  · have hother : a ∈ front ∨ a ∈ back →
        Folded ((waiting key (key a) (.pushed item :: s.log)).map Prod.snd) a := by
      intro hside
      have hne : key item ≠ key a := by
        rw [← hp]
        rintro heq
        obtain ⟨hfront, hback⟩ := h.not_mem_of_split hsplit
        rcases hside with ha | ha
        · exact hfront (heq ▸ List.mem_map_of_mem ha)
        · exact hback (heq ▸ List.mem_map_of_mem ha)
      rw [waiting_pushed_of_ne hne]
      refine h.folded a ?_
      rw [hsplit, List.mem_append, List.mem_cons]
      exact hside.imp_right .inr
    rcases List.mem_append.1 ha with ha | ha
    · exact hother (.inl ha)
    · rcases List.mem_cons.1 ha with rfl | ha
      · rw [waiting_pushed (hp'.trans hp).symm, hp', List.map_append]
        exact .absorb (h.folded p hmem) habsorbs
      · exact hother (.inr ha)
  · rw [hkeys] at hk
    have hne : key item ≠ k := fun heq => hk (heq ▸ hp ▸ List.mem_map_of_mem hmem)
    rw [waiting_pushed_of_ne hne]
    exact h.nothing k hk
  · rw [hkeys]
    refine h.ordered.imp ?_
    rintro k k' ⟨i, j, hi, hj, hlt⟩
    exact ⟨i, j, firstMoment_pushed hi, firstMoment_pushed hj, hlt⟩

/-- An item that is taken leaves the others pending. -/
theorem take (h : s.Settled key) {item : α} {rest : List α}
    (hsplit : s.queue.pending = item :: rest) :
    Settled key { queue := { s.queue with pending := rest }, running := some item,
                  log := .taken item :: s.log } := by
  have hne : ∀ k ∈ rest.map key, key item ≠ k := fun k hk heq =>
    (h.not_mem_of_split (hsplit.trans (List.nil_append _).symm)).2 (heq ▸ hk)
  have hordered := h.ordered
  rw [hsplit, List.map_cons, List.pairwise_cons] at hordered
  refine ⟨fun a ha => ?_, fun k hk => ?_, ?_, h.served.cons ?_⟩
  · rw [waiting_taken_of_ne (hne _ (List.mem_map_of_mem ha))]
    exact h.folded a (hsplit ▸ List.mem_cons_of_mem item ha)
  · by_cases heq : key item = k
    · exact waiting_taken heq
    · rw [waiting_taken_of_ne heq]
      refine h.nothing k ?_
      rw [hsplit, List.map_cons, List.mem_cons, not_or]
      exact ⟨fun hk' => heq hk'.symm, hk⟩
  · refine hordered.2.imp_of_mem ?_
    rintro k k' hk hk' ⟨i, j, hi, hj, hlt⟩
    refine ⟨i, j, ?_, ?_, hlt⟩
    · rwa [firstMoment, waiting_taken_of_ne (hne k hk)]
    · rwa [firstMoment, waiting_taken_of_ne (hne k' hk')]
  · rintro a heq
    obtain rfl : item = a := by simpa using heq
    exact h.folded item (hsplit ▸ List.mem_cons_self)

/-- Every move keeps it so. -/
theorem after (hkey : Keyed key) (h : s.Settled key) (hs : s.Orderly) (m : Move α) :
    (s.after m).Settled key := by
  rcases after_cases hs.live m with ⟨item, -, heq⟩ | ⟨item, rest, -, -, hsplit, heq⟩ |
    ⟨item, -, -, heq⟩ | heq <;> rw [heq]
  · rcases enqueue_cases s.queue item with
      ⟨hq, hnone⟩ | ⟨front, p, back, p', hsplit, habsorbs, hq⟩ <;> rw [hq]
    · exact h.append hkey hnone
    · exact h.absorb hkey hsplit habsorbs
  · exact h.take hsplit
  · exact ⟨h.folded, h.nothing, h.ordered, h.served.cons (by simp)⟩
  · exact h

/-- **What was pushed and no longer waits has been taken since**, as a part of an item. -/
theorem exists_taken (h : s.Settled key) {newer older : List (Happening α)} {item : α}
    (hlog : s.log = newer ++ .pushed item :: older) (hpending : s.queue.pending = []) :
    ∃ a parts, .taken a ∈ newer ∧ Folded parts a ∧ item ∈ parts := by
  have hserved := h.served
  rw [hlog] at hserved
  refine hserved.waits_or_taken.resolve_left fun hwaits => ?_
  rw [← hlog, h.nothing _ (by simp [hpending])] at hwaits
  cases hwaits

end Settled

/-- After any moves the log tells what is pending. -/
theorem settled_run (hkey : Keyed key) (name : String) (moves : List (Move α)) :
    ((start name).run moves).Settled key :=
  (run_induction (I := fun s => s.Orderly ∧ s.Settled key)
    (fun _ m h => ⟨h.1.after m, h.2.after hkey h.1 m⟩) ⟨orderly_start name, settled_start name⟩
    moves).2

end Station

end Queue
end StatusCache
