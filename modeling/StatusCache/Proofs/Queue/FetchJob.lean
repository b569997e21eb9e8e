/-
# The fetch queue keeps all work

Fetch jobs go by their target: a job that is pushed while one of its target is pending is folded
into that, its entries behind the others. So what the worker gets for a target are the entries that
were pushed for it, each once and in the order in which they were pushed
(`Station.fetch_conserved`).
-/

import StatusCache.Lookup.Action
import StatusCache.Proofs.Queue.Station

namespace StatusCache

open Queue

namespace FetchJob

/-- Jobs go by their targets. -/
theorem keyed : Keyed FetchJob.target where
  absorbs h := ⟨_, .merge (decide_eq_true h)⟩
  key_eq habsorbs := by
    cases habsorbs with
    | skip hskip => cases hskip
    | merge hmerge => exact ⟨of_decide_eq_true hmerge, rfl⟩

/-- The entries of the jobs of a target, in their order. -/
def entriesFor (target : Resource) (jobs : List FetchJob) : List Entry :=
  (jobs.filter (·.target = target)).flatMap (·.entries)

variable {target : Resource} {job : FetchJob} {jobs more : List FetchJob}

/-- The entries for a target in jobs one after the other. -/
theorem entriesFor_append :
    entriesFor target (jobs ++ more) = entriesFor target jobs ++ entriesFor target more := by
  simp [entriesFor]

/-- A single job has entries for its own target. -/
theorem entriesFor_singleton :
    entriesFor target [job] = if job.target = target then job.entries else [] := by
  by_cases h : job.target = target <;> simp [entriesFor, h]

/-- Without a job for a target there are no entries for it. -/
theorem entriesFor_eq_nil (h : target ∉ jobs.map FetchJob.target) :
    entriesFor target jobs = [] := by
  have hnone : jobs.filter (·.target = target) = [] := by
    rw [List.filter_eq_nil_iff]
    intro job hjob
    simpa using fun heq : job.target = target => h (heq ▸ List.mem_map_of_mem hjob)
  rw [entriesFor, hnone, List.flatMap_nil]

/-- No entry is lost, doubled or moved when jobs are folded. -/
theorem entries_of_folded (h : Folded jobs job) : job.entries = jobs.flatMap (·.entries) := by
  induction h with
  | single a => simp
  | absorb h hc ih =>
    cases hc with
    | skip hskip => cases hskip
    | merge hmerge =>
      rw [List.flatMap_append, List.flatMap_cons, List.flatMap_nil, List.append_nil, ← ih]
      rfl

end FetchJob

namespace Queue.Station

open FetchJob

/-- What was pushed for a target was taken for it, or waits. -/
theorem entriesFor_pushedIn {log : List (Happening FetchJob)} (h : Served FetchJob.target log)
    (target : Resource) :
    entriesFor target (pushedIn log) = entriesFor target (takenIn log) ++
      ((waiting FetchJob.target target log).map Prod.snd).flatMap (·.entries) := by
  induction log with
  | nil => rfl
  | cons x log ih =>
    have ih := ih h.tail
    cases x with
    | pushed job =>
      rw [pushedIn, takenIn, entriesFor_append, ih, entriesFor_singleton]
      by_cases hjob : job.target = target
      · rw [if_pos hjob, waiting_pushed hjob]
        simp
      · rw [if_neg hjob, waiting_pushed_of_ne hjob, List.append_nil]
    | taken job =>
      rw [pushedIn, takenIn, entriesFor_append, ih, entriesFor_singleton]
      by_cases hjob : job.target = target
      · -- The job that is taken is folded of what waited.
        have hentries := entries_of_folded (h [] job log rfl)
        rw [if_pos hjob, waiting_taken hjob, hentries, hjob]
        simp
      · rw [if_neg hjob, waiting_taken_of_ne hjob, List.append_nil]
    | finished job => exact ih

/-- What is pending for a target is what waits. -/
theorem entriesFor_pending {s : Station FetchJob} (h : s.Settled FetchJob.target)
    (target : Resource) :
    entriesFor target s.queue.pending =
      ((waiting FetchJob.target target s.log).map Prod.snd).flatMap (·.entries) := by
  by_cases hpending : target ∈ s.queue.pending.map FetchJob.target
  · obtain ⟨job, hjob, rfl⟩ := List.mem_map.1 hpending
    rw [← entries_of_folded (h.folded job hjob)]
    obtain ⟨front, back, hsplit⟩ := List.append_of_mem hjob
    obtain ⟨hfront, hback⟩ := h.not_mem_of_split hsplit
    have hsingle : job :: back = [job] ++ back := rfl
    rw [hsplit, hsingle, entriesFor_append, entriesFor_append, entriesFor_eq_nil hfront,
      entriesFor_eq_nil hback, entriesFor_singleton, if_pos rfl, List.nil_append,
      List.append_nil]
  · rw [entriesFor_eq_nil hpending, h.nothing target hpending]
    rfl

/-- **The fetch queue neither loses nor doubles nor reorders work.** However pushes and the worker
interleave, at every moment the entries of the handled jobs of a target, of the running one and of
the pending one, in this order, are the entries pushed for that target, in the order of the pushes.
Of each target at most one job is pending: all that was pushed for the target since the worker last
took a job of it, folded. Pending jobs stand in the order in which their first parts were pushed. -/
theorem fetch_conserved (name : String) (moves : List (Move FetchJob)) :
    let s := (start name : Station FetchJob).run moves
    (∀ target, entriesFor target (finishedIn s.log) ++ entriesFor target s.running.toList ++
      entriesFor target s.queue.pending = entriesFor target (pushedIn s.log)) ∧
    (s.queue.pending.map FetchJob.target).Nodup ∧
    (∀ job ∈ s.queue.pending,
      Folded ((waiting FetchJob.target job.target s.log).map Prod.snd) job) ∧
    (s.queue.pending.map FetchJob.target).Pairwise (Sooner FetchJob.target s.log) := by
  intro s
  have horderly : s.Orderly := orderly_run name moves
  have hsettled : s.Settled FetchJob.target := settled_run keyed name moves
  refine ⟨fun target => ?_, hsettled.nodup, hsettled.folded, hsettled.ordered⟩
  calc
    entriesFor target (finishedIn s.log) ++ entriesFor target s.running.toList ++
        entriesFor target s.queue.pending
      = entriesFor target (takenIn s.log) ++ entriesFor target s.queue.pending := by
        rw [← entriesFor_append, ← horderly.taken_eq]
    _ = entriesFor target (takenIn s.log) ++
        ((waiting FetchJob.target target s.log).map Prod.snd).flatMap (·.entries) := by
        rw [entriesFor_pending hsettled]
    _ = entriesFor target (pushedIn s.log) := (entriesFor_pushedIn hsettled.served target).symm

end Queue.Station

end StatusCache
