/-
# Caches with a history

A cache is changed by six operations (`Cache.Command`). Whatever sequence of them is run from an
empty cache, on places of the workspace, the tables of the cache say the same afterwards, and every
look-up is answered from the records alone: `history_faithful`.
-/

import Mathlib
import StatusCache.Proofs.Cache.Invalidate
import StatusCache.Proofs.Cache.Nearest

namespace StatusCache

open Resource (WellFormed Built)

namespace Cache

variable {c : Cache} {r p k project : Resource} {record : Record}

/-! ### Forgetting a project -/

/-- What stays when a project is forgotten is neither the project nor below it. -/
theorem stays_iff :
    (r ≠ project && !project.isAncestorOf r) = true ↔
      ¬(r = project ∨ project.isAncestorOf r) := by
  simp

/-- What a table keeps when a project and what lies in it are taken from its keys. -/
theorem get?_filter_stays {ν : Type} (t : Table Resource ν) (project k : Resource) :
    (t.filter fun r => r ≠ project && !project.isAncestorOf r).get? k =
      if k = project ∨ project.isAncestorOf k then none else t.get? k := by
  rw [Table.get?_filter]
  by_cases hk : k = project ∨ project.isAncestorOf k
  · rw [if_pos hk, if_neg fun h => stays_iff.1 h hk]
  · rw [if_neg hk, if_pos (stays_iff.2 hk)]

/-- Forgetting a project drops the records of the project and below it. -/
theorem records_forgetProject (c : Cache) (project r : Resource) :
    (c.forgetProject project).records.get? r =
      if r = project ∨ project.isAncestorOf r then none else c.records.get? r :=
  get?_filter_stays c.records project r

/-- The bucket of the root stays, without the project. -/
theorem buckets_forgetProject (c : Cache) (project k : Resource) :
    (c.forgetProject project).buckets.get? k =
      if k = project ∨ project.isAncestorOf k then none
      else if k = .root then (c.buckets.get? k).map (·.filter (· ≠ project))
      else c.buckets.get? k := by
  unfold forgetProject
  simp only
  split
  next rs hrs =>
    rw [get?_filter_stays] at hrs
    rw [Table.get?_insert, get?_filter_stays]
    by_cases hroot : Resource.root = k
    · subst hroot
      split at hrs
      · cases hrs
      next hstays => simp [hstays, hrs]
    · rw [if_neg hroot, if_neg (Ne.symm hroot)]
  next hnone =>
    rw [get?_filter_stays] at hnone ⊢
    by_cases hroot : k = .root
    · subst hroot
      split at hnone
      next hgoes => simp [hgoes]
      next hstays => simp [hstays, hnone]
    · rw [if_neg hroot]

/-- Forgetting a project drops the buckets of the project and below it, and takes it out of the
root's. -/
theorem bucket_forgetProject (c : Cache) (project k : Resource) :
    (c.forgetProject project).bucket k =
      if k = project ∨ project.isAncestorOf k then []
      else if k = .root then (c.bucket k).filter (· ≠ project)
      else c.bucket k := by
  rw [bucket, buckets_forgetProject, bucket]
  split
  · rfl
  split
  · cases c.buckets.get? k <;> rfl
  · rfl

/-- A place goes with a project if its parent does, or if it is the project itself. -/
theorem goes_iff (hr : r.WellFormed) (hproject : project.WellFormed)
    (hcontainer : project.isContainer) (hp : r.parent? = some p) :
    (r = project ∨ project.isAncestorOf r) ↔
      r = project ∨ p = project ∨ project.isAncestorOf p := by
  have above : ∀ s : Resource, s.WellFormed → (project.isAncestorOf s ↔ project ∈ s.ancestors) :=
    fun s hs => by rw [hs.mem_ancestors_iff hproject, and_iff_right hcontainer]
  rw [above r hr, above p (hr.parent hp), Resource.mem_ancestors_of_parent? hp,
    @eq_comm _ project p]

/-- What is left of a project and what is listed of it go together. -/
theorem Coherent.forgetProject (h : c.Coherent) (hplaced : c.Placed)
    (hproject : project.WellFormed) (hkind : project.kind = .project ∨ project.kind = .root) :
    (c.forgetProject project).Coherent := by
  have hcontainer : project.isContainer := by
    rcases hkind with hk | hk <;> simp [Resource.isContainer, hk, Resource.Kind.isContainer]
  have hparent : ∀ q, project.parent? = some q → q = .root := by
    intro q hq
    rcases hkind with hk | hk
    · simpa [Resource.parent?, hk, eq_comm] using hq
    · rw [Resource.parent?_eq_none.2 hk] at hq
      cases hq
  refine ⟨?_, ?_, ?_, ?_, ?_, ?_⟩
  · intro r record hr
    rw [records_forgetProject] at hr
    split at hr
    · cases hr
    · exact h.keyed hr
  · intro r hr
    rw [records_forgetProject] at hr
    split at hr
    · cases hr
    next hstays =>
      obtain ⟨p, hp, hmem⟩ := h.listed hr
      refine ⟨p, hp, ?_⟩
      -- A record that stays is listed by a bucket that stays: its parent goes only if it goes
      -- itself.
      rw [goes_iff (hplaced r (by rwa [h.get?_eq])) hproject hcontainer hp, not_or] at hstays
      rw [bucket_forgetProject, if_neg hstays.2]
      split
      · exact List.mem_filter.2 ⟨hmem, by simpa using hstays.1⟩
      · exact hmem
  · intro r p hr
    rw [bucket_forgetProject] at hr
    split at hr
    · cases hr
    next hstays =>
      -- The bucket of the root stays, but no longer lists the project.
      have hmem : r ∈ c.bucket p ∧ (p = .root → r ≠ project) := by
        split at hr
        · exact ⟨(List.mem_filter.1 hr).1, fun _ => by simpa using (List.mem_filter.1 hr).2⟩
        next hp => exact ⟨hr, fun hroot => absurd hroot hp⟩
      obtain ⟨hp, hsome⟩ := h.stored hmem.1
      refine ⟨hp, ?_⟩
      have hr : ¬(r = project ∨ project.isAncestorOf r) := by
        rw [goes_iff (hplaced r (by rwa [h.get?_eq])) hproject hcontainer hp]
        rintro (rfl | hgoes)
        · exact hmem.2 (hparent p hp) rfl
        · exact hstays hgoes
      rwa [records_forgetProject, if_neg hr]
  · intro p
    rw [bucket_forgetProject]
    split
    · exact List.nodup_nil
    split
    · exact (h.once p).filter _
    · exact h.once p
  · exact h.records.filter _
  · unfold Cache.forgetProject
    simp only
    split
    · exact (h.buckets.filter _).insert _ _
    · exact h.buckets.filter _

/-! ### Sequences of operations -/

/-- The operations of a cache. -/
inductive Command
  | put (record : Record)
  | ensureBucket (container : Resource)
  | removeBucket (container : Resource)
  | invalidate (r : Resource) (depth : Depth)
  | forgetProject (project : Resource)
  | clear

/-- What an operation makes of a cache. -/
def Command.run (c : Cache) : Command → Cache
  | put record => c.put record
  | ensureBucket container => c.ensureBucket container
  | removeBucket container => c.removeBucket container
  | invalidate r depth => (c.invalidate r depth).2
  | forgetProject project => c.forgetProject project
  | clear => {}

/-- The operation is about places, and it forgets a project or the root. -/
def Command.Valid : Command → Prop
  | put record => record.resource.Built
  | ensureBucket container => container.Built
  | removeBucket container => container.Built
  | invalidate r _ => r.Built
  | forgetProject project => project.Built ∧ (project.kind = .project ∨ project.kind = .root)
  | clear => True

/-- The cache that a sequence of operations makes of an empty one. -/
def history (commands : List Command) : Cache := commands.foldl Command.run {}

/-- What holds of a cache after every sequence of operations. -/
structure Sound (c : Cache) : Prop where
  coherent : c.Coherent
  placed : c.Placed

/-- Taking records away leaves a sound cache, if it is coherent still. -/
theorem Sound.of_subset {c' : Cache} (h : c.Sound) (hcoherent : c'.Coherent)
    (hsub : ∀ r, (c'.records.get? r).isSome → (c.records.get? r).isSome) : c'.Sound := by
  refine ⟨hcoherent, fun r hr => h.placed r ?_⟩
  rw [hcoherent.get?_eq] at hr
  rw [h.coherent.get?_eq]
  exact hsub r hr

/-- Putting in a record keeps a cache sound. -/
theorem Sound.put (h : c.Sound) (hr : record.resource.WellFormed) : (c.put record).Sound := by
  cases hp : record.resource.parent? with
  | none => rwa [put_of_parent?_none hp]
  | some p =>
    refine ⟨h.coherent.put record, fun r hsome => ?_⟩
    rw [(h.coherent.put record).get?_eq, records_put hp] at hsome
    split at hsome
    next heq => exact heq ▸ hr
    · exact h.placed r (by rwa [h.coherent.get?_eq])

/-- Removing a bucket keeps a cache sound. -/
theorem Sound.removeBucket (h : c.Sound) (container : Resource) :
    (c.removeBucket container).Sound := by
  refine h.of_subset (h.coherent.removeBucket container) fun r hr => ?_
  rw [records_removeBucket] at hr
  split at hr
  · cases hr
  · exact hr

/-- Forgetting a project keeps a cache sound. -/
theorem Sound.forgetProject (h : c.Sound) (hproject : project.WellFormed)
    (hkind : project.kind = .project ∨ project.kind = .root) :
    (c.forgetProject project).Sound := by
  refine h.of_subset (h.coherent.forgetProject h.placed hproject hkind) fun r hr => ?_
  rw [records_forgetProject] at hr
  split at hr
  · cases hr
  · exact hr

/-- Every operation on places keeps a cache sound. -/
theorem Sound.run (h : c.Sound) {command : Command} (hvalid : command.Valid) :
    (command.run c).Sound := by
  cases command with
  | put record => exact h.put hvalid.wellFormed
  | ensureBucket container =>
    refine h.of_subset (h.coherent.ensureBucket container) fun r hr => ?_
    rwa [Command.run, records_ensureBucket] at hr
  | removeBucket container => exact h.removeBucket container
  | invalidate r depth => exact drop_induction (fun _ k hc => hc.removeBucket k) r h
  | forgetProject project => exact h.forgetProject hvalid.1.wellFormed hvalid.2
  | clear => exact ⟨Coherent.empty, fun r hr => by simp [Command.run, get?, bucket] at hr⟩

/-- Every sequence of operations on places leaves a sound cache. -/
theorem sound_history {commands : List Command} (h : ∀ command ∈ commands, command.Valid) :
    (history commands).Sound := by
  have hrun : ∀ c : Cache, c.Sound → (commands.foldl Command.run c).Sound := by
    induction commands with
    | nil => exact fun c hc => hc
    | cons command commands ih =>
      intro c hc
      exact ih (fun later hl => h later (List.mem_cons_of_mem _ hl)) _
        (hc.run (h command List.mem_cons_self))
  exact hrun {} ⟨Coherent.empty, fun r hr => by simp [get?, bucket] at hr⟩

/-- **The two tables of a cache are kept in step.** After every sequence of operations on places,
from an empty cache, every record is kept under its resource and listed by the bucket of its
parent, and what a bucket lists has that parent and a record. So each look-up is answered by the
records alone: a record by its resource, the children of a container by their parent, the number of
records by the buckets, and the nearest record above a place by the paths. -/
theorem history_faithful {commands : List Command} (h : ∀ command ∈ commands, command.Valid) :
    let c := history commands
    (∀ r record, c.records.get? r = some record →
      record.resource = r ∧ ∃ p, r.parent? = some p ∧ r ∈ c.bucket p) ∧
    (∀ p r, r ∈ c.bucket p → r.parent? = some p ∧ (c.records.get? r).isSome) ∧
    (∀ r, c.get? r = c.records.get? r) ∧
    (∀ p, (((c.children? p).getD []).map (·.resource)).Nodup ∧
      ∀ record, record ∈ (c.children? p).getD [] ↔
        c.get? record.resource = some record ∧ record.resource.parent? = some p) ∧
    c.size = (c.buckets.entries.map fun e => e.2.length).sum ∧
    (∀ r : Resource, r.Built →
      (∀ record, c.nearestAbove? r = some record ↔ c.Nearest r record) ∧
      (c.nearestAbove? r = none ↔ ∀ record, ¬c.CachedAbove r record)) := by
  obtain ⟨hc, hplaced⟩ := sound_history h
  refine ⟨fun r record hr => ⟨hc.keyed hr, hc.listed (by rw [hr]; rfl)⟩, fun p r => hc.stored,
    hc.get?_eq, fun p => ⟨hc.nodup_children? p, fun record => hc.mem_children?⟩, hc.size_eq,
    fun r hr => ⟨fun record => ?_, ?_⟩⟩
  · exact nearestAbove?_eq_some hc hplaced hr.wellFormed
  · exact nearestAbove?_eq_none hc hplaced hr.wellFormed

/-- The bucket of a folder stays when the folder itself is dropped, and the file in it is then
described by the project. -/
theorem history_faithful_gap :
    let gone := Record.bare (.folder "/p/a") .normal {}
    let above := Record.bare (.project "p") .normal {}
    let file := Record.bare (.file "/p/a/f") .modified {}
    let commands : List Command :=
      [.put gone, .put above, .put file, .removeBucket (.project "p")]
    (∀ command ∈ commands, command.Valid) ∧
      ((history commands).buckets.entries.map fun e => e.2.length).sum = 2 ∧
      (history commands).Nearest file.resource above := by
  intro gone above file commands
  have hproject : (Resource.project "p").Built :=
    @Built.project "p" "p" (by decide) (by cbv)
  have hvalid : ∀ command ∈ commands, command.Valid := by
    simp only [commands, List.forall_mem_cons]
    exact ⟨.path "/p/a" .folder, hproject, .path "/p/a/f" .file, hproject, by simp⟩
  obtain ⟨-, -, -, -, hsize, hnearest⟩ := history_faithful hvalid
  refine ⟨hvalid, hsize.symm.trans ?_, ((hnearest _ (.path "/p/a/f" .file)).1 _).1 ?_⟩
  · unfold commands gone above file
    cbv
  · unfold commands gone above file
    cbv

end Cache
end StatusCache
