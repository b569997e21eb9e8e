/-
# The footprint of an invalidation

To invalidate a resource is to walk down from it, from containers to what their buckets list, as
many steps as the depth allows. `invalidate_footprint` says what this does to a cache, whatever the
cache has been through: the walk ends, and the resources within reach are visited, each once; the
buckets of the containers among them go, with the records they list; and everything else stays, the
record of the resource itself included.

All it takes is that every bucket lists children of its own container, each once. No operation ever
breaks that, also not for resources that stand for no place (`tied_history`).
-/

import Mathlib.Logic.Relation
import StatusCache.Proofs.Cache.History

namespace StatusCache

namespace Cache

variable {c : Cache} {r m k : Resource} {depth : Depth} {levels : Nat}

/-! ### Buckets list children -/

namespace Tied

/-- The buckets of an empty cache are tied. -/
theorem empty : ({} : Cache).Tied where
  parent hm := by cases hm
  once _ := List.nodup_nil

/-- Putting in a record ties it to the bucket of its parent. -/
theorem put (h : c.Tied) (record : Record) : (c.put record).Tied where
  parent {m k} hm := by
    rw [bucket_put] at hm
    split at hm
    next hk =>
      rcases List.mem_insert_iff.1 hm with rfl | hm
      · exact hk
      · exact h.parent hm
    · exact h.parent hm
  once k := by
    rw [bucket_put]
    split
    · exact (h.once k).insert
    · exact h.once k

/-- Ensuring a bucket keeps the buckets tied. -/
theorem ensureBucket (h : c.Tied) (container : Resource) : (c.ensureBucket container).Tied where
  parent hm := h.parent (by rwa [bucket_ensureBucket] at hm)
  once k := by
    rw [bucket_ensureBucket]
    exact h.once k

/-- Removing a bucket keeps the others tied. -/
theorem removeBucket (h : c.Tied) (container : Resource) : (c.removeBucket container).Tied := by
  rw [removeBucket_eq]
  exact h.without [container]

/-- An invalidation keeps the buckets that are left tied. -/
theorem invalidate (h : c.Tied) (r : Resource) (depth : Depth) : (c.invalidate r depth).2.Tied :=
  drop_induction (fun _ k hc => hc.removeBucket k) r h

/-- Forgetting a project keeps the buckets that are left tied. -/
theorem forgetProject (h : c.Tied) (project : Resource) : (c.forgetProject project).Tied where
  parent {m k} hm := by
    rw [bucket_forgetProject] at hm
    split at hm
    · cases hm
    split at hm
    · exact h.parent (List.mem_filter.1 hm).1
    · exact h.parent hm
  once k := by
    rw [bucket_forgetProject]
    split
    · exact List.nodup_nil
    split
    · exact (h.once k).filter _
    · exact h.once k

/-- Every command keeps the buckets tied. -/
theorem run (h : c.Tied) (command : Command) : (command.run c).Tied := by
  cases command with
  | put record => exact h.put record
  | ensureBucket container => exact h.ensureBucket container
  | removeBucket container => exact h.removeBucket container
  | invalidate r depth => exact h.invalidate r depth
  | forgetProject project => exact h.forgetProject project
  | clear => exact empty

end Tied

/-- Whatever operations a cache has been through, its buckets list children of their containers. -/
theorem tied_history (commands : List Command) : (history commands).Tied := by
  have hrun : ∀ c : Cache, c.Tied → (commands.foldl Command.run c).Tied := by
    induction commands with
    | nil => exact fun c hc => hc
    | cons command commands ih => exact fun c hc => ih _ (hc.run command)
  exact hrun {} .empty

/-! ### Within reach -/

/-- One step down: from a container to a member of its bucket. -/
def Lists (c : Cache) (k m : Resource) : Prop := k.isContainer ∧ m ∈ c.bucket k

/-- Steps down lead from `r` to `m`, at most as many as the depth allows. -/
def InReach (c : Cache) : Depth → Resource → Resource → Prop
  | .zero, r, m => m = r
  | .one, r, m => m = r ∨ c.Lists r m
  | .infinite, r, m => Relation.ReflTransGen c.Lists r m

/-- What is listed step by step is what a walk of enough levels visits. -/
theorem reflTransGen_iff_mem_walk :
    Relation.ReflTransGen c.Lists r m ↔ ∃ levels, m ∈ c.walk levels r := by
  constructor
  · intro h
    induction h using Relation.ReflTransGen.head_induction_on with
    | refl => exact ⟨0, c.self_mem_walk 0 m⟩
    | head hstep _ ih =>
      obtain ⟨levels, hm⟩ := ih
      exact ⟨levels + 1, mem_walk_succ.2 (.inr ⟨_, hstep, hm⟩)⟩
  · rintro ⟨levels, hm⟩
    induction levels generalizing r with
    | zero =>
      obtain rfl := List.mem_singleton.1 hm
      exact .refl
    | succ levels ih =>
      rcases mem_walk_succ.1 hm with rfl | ⟨child, hstep, hm⟩
      · exact .refl
      · exact .head hstep (ih hm)

/-- A walk goes as far as its depth reaches. -/
theorem Tied.mem_walk_levels (h : c.Tied) (r : Resource) (depth : Depth) :
    m ∈ c.walk (c.levels depth) r ↔ c.InReach depth r m := by
  cases depth with
  | zero => exact List.mem_singleton
  | one => exact mem_walk_one
  | infinite =>
    rw [InReach, reflTransGen_iff_mem_walk, levels]
    constructor
    · exact fun hm => ⟨_, hm⟩
    · rintro ⟨n, hm⟩
      rcases Nat.le_total c.buckets.size n with hle | hle
      · rwa [h.walk_eq_of_le hle] at hm
      · exact walk_mono hle hm

/-- Where fewer buckets are left, a depth still goes as far as they lead. -/
theorem Tied.walk_levels_without (h : c.Tied) (gone : List Resource) (r : Resource)
    (depth : Depth) : (c.without gone).walk ((c.without gone).levels depth) r =
      (c.without gone).walk (c.levels depth) r := by
  cases depth with
  | zero => rfl
  | one => rfl
  | infinite =>
    have hle : (c.without gone).buckets.size ≤ c.buckets.size := List.length_filter_le _ _
    exact ((h.without gone).walk_eq_of_le hle).symm

/-! ### What goes and what stays -/

/-- An invalidation takes away the buckets of the containers that its walk visits. -/
theorem Tied.invalidate_eq (h : c.Tied) (r : Resource) (depth : Depth) :
    c.invalidate r depth = (c.walk (c.levels depth) r,
      c.without ((c.walk (c.levels depth) r).filter (·.isContainer))) :=
  h.drop_eq _ r

/-- **What an invalidation visits, what it takes and what it leaves.** In a cache with any history,
the walk down from a resource ends by itself: more levels than there are buckets make no difference.
It visits the resources within reach of the depth, each once. The buckets of the containers among
them go, the records that these list go, and all other buckets and records stay as they are. The
record of the resource itself is one of those that stay. -/
theorem invalidate_footprint (commands : List Command) (r : Resource) (depth : Depth) :
    let c := history commands
    let visited := (c.invalidate r depth).1
    let after := (c.invalidate r depth).2
    let Listed := fun m => ∃ k ∈ visited, k.isContainer ∧ m ∈ c.bucket k
    (∀ levels ≥ c.buckets.size, c.drop levels r = c.invalidate r .infinite) ∧
    visited.Nodup ∧
    (∀ m, m ∈ visited ↔ c.InReach depth r m) ∧
    (∀ k, k ∈ visited → k.isContainer → after.buckets.get? k = none) ∧
    (∀ k, ¬(k ∈ visited ∧ k.isContainer) → after.buckets.get? k = c.buckets.get? k) ∧
    (∀ m, Listed m → after.records.get? m = none ∧ after.get? m = none) ∧
    (∀ m, ¬Listed m →
      after.records.get? m = c.records.get? m ∧ after.get? m = c.get? m) ∧
    ¬Listed r := by
  intro c visited after Listed
  have h : c.Tied := tied_history commands
  have heq := h.invalidate_eq r depth
  have hvisited : visited = c.walk (c.levels depth) r := congrArg Prod.fst heq
  have hafter : after = c.without (visited.filter (·.isContainer)) := by
    rw [hvisited]
    exact congrArg Prod.snd heq
  have hlisted : ∀ m, Listed m ↔ ∃ k ∈ visited.filter (·.isContainer), m ∈ c.bucket k := by
    exact fun m => exists_congr fun k => by rw [List.mem_filter, and_assoc]
  have hrecords : ∀ m, Listed m ↔ ¬∀ k ∈ visited.filter (·.isContainer), m ∉ c.bucket k := by
    intro m
    rw [hlisted]
    simp only [not_forall, not_not, exists_prop]
  refine ⟨fun levels hle => ?_, hvisited ▸ h.nodup_walk _ r,
    fun m => hvisited ▸ h.mem_walk_levels r depth, fun k hk hcontainer => ?_, fun k hk => ?_,
    fun m hm => ⟨?_, ?_⟩, fun m hm => ⟨?_, ?_⟩, ?_⟩
  · rw [h.drop_eq, h.walk_eq_of_le hle, h.invalidate_eq]
    rfl
  · rw [hafter, buckets_without, if_pos (List.mem_filter.2 ⟨hk, hcontainer⟩)]
  · rw [hafter, buckets_without, if_neg (mt List.mem_filter.1 hk)]
  · rw [hafter, records_without, if_neg ((hrecords m).1 hm)]
  · rw [hafter, get?_without, if_pos ((hlisted m).1 hm)]
  · rw [hafter, records_without, if_pos (not_not.1 (mt (hrecords m).2 hm))]
  · rw [hafter, get?_without, if_neg (mt (hlisted m).2 hm)]
  · -- The bucket that lists `r` is that of a container above it, and no walk goes up.
    rintro ⟨k, hk, -, hr⟩
    have := Resource.length_ancestors_le (h.mem_lineage_of_mem_walk (hvisited ▸ hk))
    rw [Resource.length_ancestors_of_parent? (h.parent hr)] at this
    omega

end Cache
end StatusCache
