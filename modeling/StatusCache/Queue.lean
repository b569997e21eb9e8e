/-
# Coalescing queues

`CoalescingQueue` and `QueuedItem`, section 4.4 of the svncache specification.

Background work waits in a queue with one worker. An item that is pushed may be dropped because an
equal one is pending, or folded into a pending one for the same target; otherwise it waits behind
the others. Each step of the producers and of the worker is an operation of its own: the check that
lets a producer in, the insertion, the worker's taking of an item, and its finishing of one. Any
interleaving of producers and worker is a sequence of these steps.
-/

namespace StatusCache

/-- Work that can be folded together. -/
class Coalesce (α : Type) where
  /-- Whether two items are equal. -/
  same : α → α → Bool
  /-- Whether an item may be dropped when an equal one is pending. -/
  canSkip : α → Bool
  /-- Whether the second item is for the same target as the first. -/
  canMerge : α → α → Bool
  /-- The first item with the second folded in. -/
  merge : α → α → α

/-- A queue and the state of its accounting. -/
structure Queue (α : Type) where
  name : String
  pending : List α := []
  /-- Number of items that are pending or running. -/
  inFlight : Nat := 0
  /-- Whether the queue has been shut down. -/
  stopped : Bool := false
deriving Repr

namespace Queue

variable {α σ : Type} [Coalesce α]

/-- The pending items with a new one folded into the first that can take it, if one can. -/
def fold? (item : α) : List α → Option (List α)
  | [] => none
  | p :: ps =>
    if Coalesce.canMerge p item then some (Coalesce.merge p item :: ps)
    else (fold? item ps).map (p :: ·)

/-- Inserts an item that has been let in. -/
def enqueue (q : Queue α) (item : α) : Queue α :=
  if Coalesce.canSkip item && q.pending.any (Coalesce.same · item) then q
  else
    match fold? item q.pending with
    | some pending => { q with pending := pending }
    | none => { q with pending := q.pending ++ [item], inFlight := q.inFlight + 1 }

/-- Pushes an item; a queue that has been shut down lets none in. -/
def push (q : Queue α) (item : α) : Queue α := if q.stopped then q else q.enqueue item

omit [Coalesce α] in
/-- The worker takes the item that has waited longest. -/
def take? (q : Queue α) : Option (α × Queue α) :=
  if q.stopped then none
  else
    match q.pending with
    | [] => none
    | item :: rest => some (item, { q with pending := rest })

omit [Coalesce α] in
/-- The worker is done with an item, whether it succeeded or failed. -/
def finish (q : Queue α) : Queue α := { q with inFlight := q.inFlight - 1 }

omit [Coalesce α] in
/-- Whether nothing is pending or running, as far as the accounting knows. -/
def isIdle (q : Queue α) : Bool := q.inFlight = 0 || q.stopped

omit [Coalesce α] in
/-- Stops the worker and drops what is pending. -/
def shutdown (q : Queue α) : Queue α :=
  if q.stopped then q else { q with pending := [], stopped := true }

/-- Lets the worker run at most `limit` items, one at a time. Running an item may change a state
and push further items. -/
def drain (run : α → σ → List α × σ) : Nat → Queue α → σ → Queue α × σ
  | 0, q, s => (q, s)
  | limit + 1, q, s =>
    match q.take? with
    | none => (q, s)
    | some (item, q) =>
      let (spawned, s) := run item s
      drain run limit (spawned.foldl push q).finish s

end Queue
end StatusCache
