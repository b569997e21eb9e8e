/-
# Dropping buckets below a resource

Invalidating a resource walks down from it through the buckets and removes those it comes to. So it
removes the bucket of a container if the depth allows for it and every container strictly between
the two has a record (`drops_invalidate`): where such a record is missing, the walk does not get
any further, and what lies below stays.
-/

import StatusCache.Proofs.Cache.Walk

namespace StatusCache

open Resource (length_ancestors_le length_ancestors_lt length_ancestors_of_parent?
  mem_lineage_of_parent? mem_lineage_total self_mem_lineage)

namespace Cache

variable {c c' c'' : Cache} {r p m : Resource} {levels : Nat} {depth : Depth}
  {S T : Resource → Prop}

/-! ### Dropped buckets -/

/-- One cache comes from another by dropping some buckets with the records that they list. -/
structure Drops (c : Cache) (S : Resource → Prop) (c' : Cache) : Prop where
  gone : ∀ {k}, S k → c'.buckets.get? k = none
  kept : ∀ {k}, ¬S k → c'.buckets.get? k = c.buckets.get? k
  dropped : ∀ {k r}, S k → r ∈ c.bucket k → c'.records.get? r = none
  others : ∀ {r}, (∀ k, S k → r ∉ c.bucket k) → c'.records.get? r = c.records.get? r

namespace Drops

/-- A bucket that was dropped lists nothing. -/
theorem bucket_gone (h : Drops c S c') (hk : S k) : c'.bucket k = [] := by
  rw [bucket, h.gone hk]
  rfl

/-- A bucket that was not dropped lists what it did. -/
theorem bucket_kept (h : Drops c S c') (hk : ¬S k) : c'.bucket k = c.bucket k := by
  rw [bucket, h.kept hk]
  rfl

/-- Removing a bucket drops that one. -/
theorem removeBucket (c : Cache) (container : Resource) :
    Drops c (· = container) (c.removeBucket container) where
  gone hk := by rw [Cache.removeBucket, Table.get?_erase, if_pos hk]
  kept hk := by rw [Cache.removeBucket, Table.get?_erase, if_neg hk]
  dropped hk hr := by rw [records_removeBucket, if_pos (hk ▸ hr)]
  others h := by rw [records_removeBucket, if_neg (h container rfl)]

/-- Leaving out buckets drops those. -/
theorem without (c : Cache) (gone : List Resource) : Drops c (· ∈ gone) (c.without gone) where
  gone hk := by rw [buckets_without, if_pos hk]
  kept hk := by rw [buckets_without, if_neg hk]
  dropped hk hr := by rw [records_without, if_neg fun h => h _ hk hr]
  others h := by rw [records_without, if_pos h]

/-- Dropping depends on which buckets are dropped alone. -/
theorem congr (h : Drops c S c') (hST : ∀ k, S k ↔ T k) : Drops c T c' := by
  obtain rfl : S = T := funext fun k => propext (hST k)
  exact h

/-- Dropping some buckets and then others drops both. -/
theorem trans (h : Drops c S c') (h' : Drops c' T c'') :
    Drops c (fun k => S k ∨ T k) c'' where
  gone {k} hk := by
    by_cases hT : T k
    · exact h'.gone hT
    · rw [h'.kept hT]
      exact h.gone (hk.resolve_right hT)
  kept hk := by
    rw [not_or] at hk
    rw [h'.kept hk.2, h.kept hk.1]
  dropped {k r} hk hr := by
    by_cases hother : ∃ l, T l ∧ r ∈ c'.bucket l
    · obtain ⟨l, hT, hl⟩ := hother
      exact h'.dropped hT hl
    · rw [h'.others fun l hT hl => hother ⟨l, hT, hl⟩]
      by_cases hS : S k
      · exact h.dropped hS hr
      · exact absurd ⟨k, hk.resolve_left hS, by rwa [h.bucket_kept hS]⟩ hother
  others {r} hr := by
    have hT : ∀ k, T k → r ∉ c'.bucket k := by
      intro k hk
      by_cases hS : S k
      · rw [h.bucket_gone hS]
        exact List.not_mem_nil
      · rw [h.bucket_kept hS]
        exact hr k (Or.inr hk)
    rw [h'.others hT, h.others fun k hk => hr k (Or.inl hk)]

/-- A record goes if and only if the bucket of its parent does. -/
theorem get?_of_gone (h : Drops c S c') (hc' : c'.Coherent)
    (hp : r.parent? = some p) (hS : S p) : c'.get? r = none := by
  by_contra hsome
  have hmem := hc'.mem_bucket.2 ⟨hp, Option.isSome_iff_ne_none.2 hsome⟩
  rw [h.bucket_gone hS] at hmem
  cases hmem

/-- What a kept bucket lists stays cached. -/
theorem get?_of_kept (h : Drops c S c') (hc : c.Coherent) (hc' : c'.Coherent)
    (hS : ∀ p, r.parent? = some p → ¬S p) : c'.get? r = c.get? r := by
  rw [hc.get?_eq, hc'.get?_eq]
  refine h.others fun k hk hmem => hS k ?_ hk
  exact (hc.stored hmem).1

end Drops

/-! ### Walks through the buckets -/

/-- A walk of so many levels down from a resource, through the buckets, comes to a container. -/
def Reaches (c : Cache) : Nat → Resource → Resource → Prop
  | 0, r, m => r.isContainer ∧ m = r
  | levels + 1, r, m =>
    r.isContainer ∧ (m = r ∨ ∃ child ∈ c.bucket r, Reaches c levels child m)

/-- What an invalidation reaches are the containers that its walk visits. -/
theorem reaches_iff_mem_walk : Reaches c levels r m ↔ m.isContainer ∧ m ∈ c.walk levels r := by
  induction levels generalizing r with
  | zero =>
    simp only [Reaches, walk, List.mem_singleton]
    constructor
    · rintro ⟨hr, rfl⟩
      exact ⟨hr, rfl⟩
    · rintro ⟨hm, rfl⟩
      exact ⟨hm, rfl⟩
  | succ levels ih =>
    simp only [Reaches, mem_walk_succ, ih]
    constructor
    · rintro ⟨hr, rfl | ⟨child, hchild, hm, hwalk⟩⟩
      · exact ⟨hr, .inl rfl⟩
      · exact ⟨hm, .inr ⟨child, ⟨hr, hchild⟩, hwalk⟩⟩
    · rintro ⟨hm, rfl | ⟨child, ⟨hr, hchild⟩, hwalk⟩⟩
      · exact ⟨hm, .inl rfl⟩
      · exact ⟨hr, .inr ⟨child, hchild, hm, hwalk⟩⟩

/-- What is reached lies below where it starts. -/
theorem Reaches.mem_lineage (hc : c.Coherent) (h : Reaches c levels r m) : r ∈ m.lineage :=
  hc.tied.mem_lineage_of_mem_walk (reaches_iff_mem_walk.1 h).2

/-- **A walk drops the buckets that it reaches.** -/
theorem drops_drop (hc : c.Coherent) (levels : Nat) (r : Resource) :
    Drops c (Reaches c levels r) (c.drop levels r).2 := by
  rw [hc.tied.drop_eq]
  refine (Drops.without c _).congr fun k => ?_
  rw [List.mem_filter, reaches_iff_mem_walk, and_comm]

/-! ### How far a walk gets -/

/-- Every container strictly below `r` on the way down to `m` has a record, and so has `m`. -/
def Attached (c : Cache) (r m : Resource) : Prop :=
  ∀ k ∈ m.lineage, r ∈ k.ancestors → (c.get? k).isSome

/-- A resource is attached to itself. -/
theorem attached_self (c : Cache) (r : Resource) : c.Attached r r := by
  intro k hk hr
  have := length_ancestors_le hk
  have := length_ancestors_lt hr
  omega

/-- What is attached below a child with a record is attached below the parent. -/
theorem Attached.of_child (hchild : r.parent? = some p) (hr : (c.get? r).isSome)
    (h : c.Attached r m) (hm : r ∈ m.lineage) : c.Attached p m := by
  intro k hk hp
  rcases mem_lineage_total hk hm with hkr | hrk
  · rcases (mem_lineage_of_parent? hchild).1 hkr with rfl | hkp
    · exact hr
    · have := length_ancestors_le hkp
      have := length_ancestors_lt hp
      omega
  · rcases List.mem_cons.1 hrk with rfl | hrk
    · exact hr
    · exact h k hk hrk

/-- What is attached is attached by its parent. -/
theorem Attached.parent (h : c.Attached r m) (hp : m.parent? = some p) : c.Attached r p :=
  fun k hk => h k ((mem_lineage_of_parent? hp).2 (Or.inr hk))

/-- A walk that comes to a container comes to those of its children that have a record, one level
further down. -/
theorem Reaches.child (h : Reaches c levels r p) (hm : m ∈ c.bucket p)
    (hcontainer : m.isContainer) : Reaches c (levels + 1) r m := by
  induction levels generalizing r with
  | zero =>
    obtain ⟨hr, rfl⟩ := h
    exact ⟨hr, Or.inr ⟨m, hm, hcontainer, rfl⟩⟩
  | succ levels ih =>
    obtain ⟨hr, rfl | ⟨child, hchild, h⟩⟩ := h
    · exact ⟨hr, Or.inr ⟨m, hm, hcontainer, Or.inl rfl⟩⟩
    · exact ⟨hr, Or.inr ⟨child, hchild, ih h⟩⟩

/-- What is reached is a container. -/
theorem Reaches.isContainer (h : Reaches c levels r m) : m.isContainer := by
  induction levels generalizing r with
  | zero => exact h.2 ▸ h.1
  | succ levels ih =>
    obtain ⟨hr, rfl | ⟨child, _, h⟩⟩ := h
    · exact hr
    · exact ih h

/-- What is reached is attached, and no deeper than the levels go. -/
theorem Reaches.attached (hc : c.Coherent) (h : Reaches c levels r m) :
    c.Attached r m ∧ m.ancestors.length ≤ r.ancestors.length + levels := by
  induction levels generalizing r with
  | zero =>
    obtain ⟨_, rfl⟩ := h
    exact ⟨c.attached_self m, le_rfl⟩
  | succ levels ih =>
    obtain ⟨_, rfl | ⟨child, hchild, h⟩⟩ := h
    · exact ⟨c.attached_self m, by omega⟩
    · obtain ⟨hparent, hrecord⟩ := hc.mem_bucket.1 hchild
      obtain ⟨hattached, hlength⟩ := ih h
      rw [length_ancestors_of_parent? hparent] at hlength
      exact ⟨hattached.of_child hparent hrecord (h.mem_lineage hc), by omega⟩

/-- An invalidation reaches the container where it starts. -/
theorem reaches_self (hr : r.isContainer) (levels : Nat) : Reaches c levels r r := by
  cases levels with
  | zero => exact ⟨hr, rfl⟩
  | succ levels => exact ⟨hr, Or.inl rfl⟩

/-- **A walk comes to the containers that are attached below its start**, as far as its levels
allow. -/
theorem reaches_iff (hc : c.Coherent) :
    Reaches c levels r m ↔ m.isContainer ∧ r ∈ m.lineage ∧ c.Attached r m ∧
      m.ancestors.length ≤ r.ancestors.length + levels := by
  constructor
  · exact fun h => ⟨h.isContainer, h.mem_lineage hc, h.attached hc⟩
  · rintro ⟨hcontainer, hm, hattached, hlength⟩
    induction m using Resource.parent_induction generalizing levels with
    | step m ih =>
      rcases List.mem_cons.1 hm with rfl | habove
      · exact reaches_self hcontainer levels
      · cases hp : m.parent? with
        | none => simp [Resource.ancestors_of_parent?_none hp] at habove
        | some p =>
          have hlt := length_ancestors_lt habove
          rw [length_ancestors_of_parent? hp] at hlength hlt
          obtain ⟨levels, rfl⟩ : ∃ n, levels = n + 1 := ⟨levels - 1, by omega⟩
          have hrecord := hattached m m.self_mem_lineage habove
          rw [Resource.ancestors_of_parent? hp] at habove
          exact (ih p hp (Resource.isContainer_of_parent? hp) habove (hattached.parent hp)
            (by omega)).child (hc.mem_bucket.2 ⟨hp, hrecord⟩) hcontainer

/-- The levels of a depth reach what the depth spans. -/
theorem reaches_levels_iff (hc : c.Coherent) :
    Reaches c (c.levels depth) r m ↔ m.isContainer ∧ depth.Spans r m ∧ c.Attached r m := by
  rw [reaches_iff hc]
  -- Depths go by kinship and levels by the number of containers above; below `r` they agree.
  have hlevels : m.isContainer → r ∈ m.lineage → c.Attached r m →
      (m.ancestors.length ≤ r.ancestors.length + c.levels depth ↔ depth.Spans r m) := by
    intro hcontainer hm hattached
    cases depth with
    | zero =>
      rcases List.mem_cons.1 hm with rfl | habove
      · simp [Depth.Spans]
      · have := length_ancestors_lt habove
        refine iff_of_false (by simp only [levels]; omega) ?_
        rintro rfl
        omega
    | one =>
      rcases List.mem_cons.1 hm with rfl | habove
      · simp [Depth.Spans]
      · cases hp : m.parent? with
        | none => simp [Resource.ancestors_of_parent?_none hp] at habove
        | some p =>
          have hlt := length_ancestors_lt habove
          rw [length_ancestors_of_parent? hp] at hlt ⊢
          rw [Resource.ancestors_of_parent? hp] at habove
          have hne : m ≠ r := by
            rintro rfl
            rw [length_ancestors_of_parent? hp] at hlt
            omega
          simp only [levels, Depth.Spans, hp, hne, false_or, Option.some.injEq]
          constructor
          · intro h
            exact Resource.eq_of_mem_lineage p.self_mem_lineage habove (by omega)
          · rintro rfl
            omega
    | infinite =>
      -- A walk cannot be longer than there are buckets, so no level is missing.
      have hreaches : Reaches c m.ancestors.length r m :=
        (reaches_iff hc).2 ⟨hcontainer, hm, hattached, by omega⟩
      exact iff_of_true (hc.tied.height_le (reaches_iff_mem_walk.1 hreaches).2) hm
  constructor
  · rintro ⟨hcontainer, hm, hattached, hlength⟩
    exact ⟨hcontainer, (hlevels hcontainer hm hattached).1 hlength, hattached⟩
  · rintro ⟨hcontainer, hspans, hattached⟩
    have hm := hspans.mem_lineage
    exact ⟨hcontainer, hm, hattached, (hlevels hcontainer hm hattached).2 hspans⟩

/-- **Invalidating drops the buckets that the depth spans, as far as they are attached.** -/
theorem drops_invalidate (hc : c.Coherent) (r : Resource) (depth : Depth) :
    Drops c (fun m => m.isContainer ∧ depth.Spans r m ∧ c.Attached r m)
      (c.invalidate r depth).2 :=
  (drops_drop hc (c.levels depth) r).congr fun _ => reaches_levels_iff hc

end Cache
end StatusCache
