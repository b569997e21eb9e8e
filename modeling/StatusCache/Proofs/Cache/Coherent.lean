/-
# The two tables of the cache

The cache keeps records under their resources, and lists of children under their parents. In a
coherent cache (`Cache.Coherent`) the two say the same: what has a record is listed once, by the
bucket of its parent, and what a bucket lists has a record and that parent. So a look-up through the
buckets is a look-up of the record (`Coherent.get?_eq`), and every record is counted by one bucket
(`Coherent.size_eq`).

Every operation keeps the cache coherent. Dropping buckets needs nothing of the resources;
forgetting a project compares paths instead of following parents, and needs them to be well formed.
-/

import Mathlib.Algebra.GroupWithZero.Nat
import StatusCache.Cache.Basic
import StatusCache.Proofs.Resource
import StatusCache.Proofs.Table

namespace StatusCache

namespace Cache

variable {c : Cache} {r p k : Resource} {record : Record}

/-- The two tables say the same, and each says it once. -/
structure Coherent (c : Cache) : Prop where
  /-- A record is kept under its resource. -/
  keyed : ∀ {r record}, c.records.get? r = some record → record.resource = r
  /-- What has a record is listed by the bucket of its parent. -/
  listed : ∀ {r}, (c.records.get? r).isSome → ∃ p, r.parent? = some p ∧ r ∈ c.bucket p
  /-- What a bucket lists has the owner of the bucket as its parent, and a record. -/
  stored : ∀ {r p}, r ∈ c.bucket p → r.parent? = some p ∧ (c.records.get? r).isSome
  once : ∀ p, (c.bucket p).Nodup
  records : c.records.Distinct
  buckets : c.buckets.Distinct

/-- Every cached record is that of the resource it is found under. -/
def Keyed (c : Cache) : Prop := ∀ r record, c.get? r = some record → record.resource = r

/-- What lists something is a bucket. -/
theorem hasBucket_of_mem_bucket (h : r ∈ c.bucket p) : c.hasBucket p := by
  unfold bucket at h
  unfold hasBucket Table.contains
  cases hb : c.buckets.get? p with
  | none => simp [hb] at h
  | some rs => rfl

/-! ### What a coherent cache answers -/

namespace Coherent

/-- **A look-up through the buckets is a look-up of the record.** -/
theorem get?_eq (h : c.Coherent) (r : Resource) : c.get? r = c.records.get? r := by
  unfold Cache.get?
  cases hr : c.records.get? r with
  | none =>
    cases r.parent? with
    | none => rfl
    | some p => simp
  | some record =>
    obtain ⟨p, hp, hmem⟩ := h.listed (by rw [hr]; rfl)
    simp [hp, hmem]

/-- A record is held under its own resource. -/
theorem resource_eq (h : c.Coherent) (hr : c.get? r = some record) : record.resource = r :=
  h.keyed (by rwa [h.get?_eq] at hr)

/-- A bucket lists the resources with a record and that parent. -/
theorem mem_bucket (h : c.Coherent) :
    r ∈ c.bucket p ↔ r.parent? = some p ∧ (c.get? r).isSome := by
  rw [h.get?_eq]
  constructor
  · exact h.stored
  · rintro ⟨hp, hr⟩
    obtain ⟨q, hq, hmem⟩ := h.listed hr
    obtain rfl := Option.some.inj (hp.symm.trans hq)
    exact hmem

/-- **The children of a container are the cached records with that parent, each once.** -/
theorem mem_children? (h : c.Coherent) :
    record ∈ (c.children? p).getD [] ↔
      c.get? record.resource = some record ∧ record.resource.parent? = some p := by
  have hlist : (c.children? p).getD [] = (c.bucket p).filterMap c.records.get? := by
    unfold children? bucket
    cases c.buckets.get? p <;> rfl
  rw [hlist, List.mem_filterMap]
  constructor
  · rintro ⟨r, hmem, hr⟩
    obtain rfl := h.keyed hr
    exact ⟨by rw [h.get?_eq, hr], (h.stored hmem).1⟩
  · rintro ⟨hr, hp⟩
    exact ⟨record.resource, h.mem_bucket.2 ⟨hp, by rw [hr]; rfl⟩, by rw [← h.get?_eq, hr]⟩

/-- No child is listed twice. -/
theorem nodup_children? (h : c.Coherent) (p : Resource) :
    (((c.children? p).getD []).map (·.resource)).Nodup := by
  cases hb : c.buckets.get? p with
  | none => simp [children?, hb]
  | some rs =>
    have hrs : c.bucket p = rs := by simp [bucket, hb]
    have hmap : (rs.filterMap c.records.get?).map (·.resource) = rs := by
      have hstored : ∀ r ∈ rs, (c.records.get? r).isSome := fun r hr =>
        (h.stored (hrs ▸ hr)).2
      clear hrs hb
      induction rs with
      | nil => rfl
      | cons r rs ih =>
        obtain ⟨record, hr⟩ := Option.isSome_iff_exists.1 (hstored r List.mem_cons_self)
        rw [List.filterMap_cons_some hr, List.map_cons, h.keyed hr,
          ih fun s hs => hstored s (List.mem_cons_of_mem _ hs)]
    have honce : (c.bucket p).Nodup := h.once p
    simp only [children?, hb, Option.map_some, Option.getD_some]
    rwa [hmap, ← hrs]

/-- **Every record is counted by one bucket.** -/
theorem size_eq (h : c.Coherent) :
    c.size = (c.buckets.entries.map fun e => e.2.length).sum := by
  have hbucket : c.buckets.entries.map (fun e => e.2.length) =
      c.buckets.keys.map fun p => (c.bucket p).length := by
    rw [Table.keys, List.map_map]
    refine List.map_congr_left fun e he => ?_
    simp [bucket, h.buckets.get?_of_mem he]
  have hflat : (c.buckets.keys.flatMap c.bucket).Nodup := by
    refine List.nodup_flatMap.2 ⟨fun p _ => h.once p, List.Pairwise.imp ?_ h.buckets⟩
    intro p q hne r hp hq
    exact hne (Option.some.inj ((h.stored hp).1.symm.trans (h.stored hq).1))
  have hperm : c.records.keys.Perm (c.buckets.keys.flatMap c.bucket) := by
    refine (List.perm_ext_iff_of_nodup h.records hflat).2 fun r => ?_
    rw [Table.mem_keys, List.mem_flatMap]
    constructor
    · intro hr
      obtain ⟨p, _, hmem⟩ := h.listed hr
      exact ⟨p, Table.mem_keys.2 (hasBucket_of_mem_bucket hmem), hmem⟩
    · rintro ⟨p, _, hmem⟩
      exact (h.stored hmem).2
  rw [hbucket, ← List.length_flatMap, ← hperm.length_eq, Table.length_keys]
  rfl

end Coherent

/-! ### Single operations -/

/-- A record that is put in joins the bucket of its parent, and no other. -/
@[simp]
theorem bucket_put (c : Cache) (record : Record) (k : Resource) :
    (c.put record).bucket k =
      if record.resource.parent? = some k then (c.bucket k).insert record.resource
      else c.bucket k := by
  unfold put bucket
  cases hp : record.resource.parent? with
  | none => simp
  | some p =>
    by_cases hk : p = k
    · subst hk
      simp [Table.get?_insert]
    · simp [Table.get?_insert, hk]

/-- A record that is put in is held for its resource, and no other one changes. -/
theorem records_put (hp : record.resource.parent? = some p) (c : Cache) (r : Resource) :
    (c.put record).records.get? r =
      if record.resource = r then some record else c.records.get? r := by
  simp only [put, hp, Table.get?_insert]

/-- What has no parent is not cached. -/
theorem put_of_parent?_none (hp : record.resource.parent? = none) (c : Cache) :
    c.put record = c := by
  simp only [put, hp]

/-- A bucket that is empty when a record is written was empty before. -/
theorem buckets_of_put {k : Resource} (h : (c.put record).buckets.get? k = some []) :
    c.buckets.get? k = some [] := by
  unfold put at h
  cases hp : record.resource.parent? with
  | none => simpa [hp] using h
  | some p =>
    simp only [hp, Table.get?_insert] at h
    split at h
    · have hmem : record.resource ∈ (c.bucket p).insert record.resource :=
        List.mem_insert_iff.2 (.inl rfl)
      rw [Option.some.inj h] at hmem
      cases hmem
    · exact h

/-- A bucket that a container is given is its own. -/
theorem buckets_of_ensureBucket {container k : Resource} {rs : List Resource}
    (h : (c.ensureBucket container).buckets.get? k = some rs) :
    c.buckets.get? k = some rs ∨ k = container := by
  unfold ensureBucket at h
  split at h
  · exact .inl h
  · simp only [Table.get?_insert] at h
    split at h
    next hk => exact .inr hk.symm
    · exact .inl h

/-- Removing a bucket makes no other one. -/
theorem buckets_of_removeBucket {container k : Resource} {rs : List Resource}
    (h : (c.removeBucket container).buckets.get? k = some rs) : c.buckets.get? k = some rs := by
  rw [removeBucket, Table.get?_erase] at h
  split at h
  · cases h
  · exact h

/-- A bucket that was ensured is there. -/
theorem hasBucket_ensureBucket (c : Cache) (container : Resource) :
    (c.ensureBucket container).hasBucket container := by
  unfold ensureBucket
  split
  next h => exact h
  · simp [hasBucket, Table.contains, Table.get?_insert]

/-- Ensuring a bucket lists nothing more. -/
@[simp]
theorem bucket_ensureBucket (c : Cache) (container k : Resource) :
    (c.ensureBucket container).bucket k = c.bucket k := by
  unfold ensureBucket
  split
  · rfl
  next hc =>
    by_cases hk : container = k
    · subst hk
      have hnone : c.buckets.get? container = none := by
        simpa [hasBucket, Table.contains] using hc
      simp [bucket, Table.get?_insert, hnone]
    · simp [bucket, Table.get?_insert, hk]

/-- Ensuring a bucket leaves the records. -/
@[simp]
theorem records_ensureBucket (c : Cache) (container : Resource) :
    (c.ensureBucket container).records = c.records := by
  unfold ensureBucket
  split <;> rfl

/-- Removing a bucket leaves the other ones. -/
@[simp]
theorem bucket_removeBucket (c : Cache) (container k : Resource) :
    (c.removeBucket container).bucket k = if k = container then [] else c.bucket k := by
  unfold removeBucket bucket
  rw [Table.get?_erase]
  split <;> rfl

/-- Removing a bucket drops the records of what it lists. -/
@[simp]
theorem records_removeBucket (c : Cache) (container r : Resource) :
    (c.removeBucket container).records.get? r =
      if r ∈ c.bucket container then none else c.records.get? r := by
  unfold removeBucket
  rw [Table.get?_filter]
  by_cases hr : r ∈ c.bucket container <;> simp [hr]

/-- What is cached has a record and is listed by its parent. -/
theorem get?_eq_some : c.get? r = some record ↔
    ∃ p, r.parent? = some p ∧ r ∈ c.bucket p ∧ c.records.get? r = some record := by
  unfold get?
  cases r.parent? with
  | none => simp
  | some p => simp

/-- A container that lists a record has a bucket. -/
theorem hasBucket_of_parent? (hp : r.parent? = some p) (hr : (c.get? r).isSome) :
    c.hasBucket p := by
  obtain ⟨record, hrecord⟩ := Option.isSome_iff_exists.1 hr
  obtain ⟨q, hq, hmem, -⟩ := get?_eq_some.1 hrecord
  obtain rfl := Option.some.inj (hp.symm.trans hq)
  exact hasBucket_of_mem_bucket hmem

/-- A record that is written is found, unless it is that of the root. -/
theorem get?_put (c : Cache) (record : Record) (k : Resource) :
    (c.put record).get? k =
      if record.resource = k ∧ k.parent?.isSome then some record else c.get? k := by
  cases hp : record.resource.parent? with
  | none =>
    rw [put_of_parent?_none hp, if_neg]
    rintro ⟨rfl, hsome⟩
    simp [hp] at hsome
  | some p =>
    unfold get?
    by_cases hk : record.resource = k
    · subst hk
      simp [hp, records_put hp]
    · cases hq : k.parent? with
      | none => simp
      | some q =>
        have hmem : k ∈ (c.put record).bucket q ↔ k ∈ c.bucket q := by
          rw [bucket_put]
          split
          · rw [List.mem_insert_iff, or_iff_right (Ne.symm hk)]
          · rfl
        simp only [Option.bind_eq_bind, Option.bind_some, hmem, records_put hp, hk, false_and,
          if_false]

/-- Putting in a record keeps records under their own resources. -/
theorem Keyed.put (h : c.Keyed) (record : Record) : (c.put record).Keyed := by
  intro r found hget
  rw [get?_put] at hget
  split at hget
  next hr =>
    obtain rfl := Option.some.inj hget
    exact hr.1
  · exact h r found hget

/-- Above a resource, nothing changes when its record is written. -/
theorem nearestAbove?_put (c : Cache) (record : Record) :
    (c.put record).nearestAbove? record.resource = c.nearestAbove? record.resource := by
  have hsame : ∀ a ∈ record.resource.ancestors, (c.put record).get? a = c.get? a := by
    intro a ha
    rw [get?_put, if_neg]
    rintro ⟨rfl, -⟩
    exact Resource.not_mem_ancestors_self _ ha
  unfold nearestAbove?
  generalize record.resource.ancestors = above at hsame ⊢
  induction above with
  | nil => rfl
  | cons a above ih =>
    rw [List.findSome?_cons, List.findSome?_cons, hsame a List.mem_cons_self,
      ih fun b hb => hsame b (List.mem_cons_of_mem a hb)]

/-- Ensuring a bucket caches nothing more. -/
@[simp]
theorem get?_ensureBucket (c : Cache) (container k : Resource) :
    (c.ensureBucket container).get? k = c.get? k := by
  simp [get?]

/-- Nothing is cached in an empty cache. -/
@[simp]
theorem get?_empty (k : Resource) : ({} : Cache).get? k = none := by
  unfold get?
  cases k.parent? <;> rfl

/-- Removing a bucket brings no record. -/
theorem get?_of_removeBucket {container : Resource}
    (h : (c.removeBucket container).get? r = some record) : c.get? r = some record := by
  obtain ⟨p, hp, hmem, hrecord⟩ := get?_eq_some.1 h
  refine get?_eq_some.2 ⟨p, hp, ?_, ?_⟩
  · rw [bucket_removeBucket] at hmem
    split at hmem
    · cases hmem
    · exact hmem
  · rw [records_removeBucket] at hrecord
    split at hrecord
    · cases hrecord
    · exact hrecord

/-! ### Coherence is kept -/

namespace Coherent

/-- An empty cache is coherent. -/
theorem empty : ({} : Cache).Coherent where
  keyed h := by cases h
  listed h := by cases h
  stored h := by cases h
  once _ := List.nodup_nil
  records := Table.distinct_empty
  buckets := Table.distinct_empty

/-- A record that is written is listed by the same write, and the others keep theirs. -/
theorem put (h : c.Coherent) (record : Record) : (c.put record).Coherent := by
  cases hp : record.resource.parent? with
  | none => rwa [put_of_parent?_none hp]
  | some p =>
    -- The same write lists the record with its parent, so each field is a case of the two tables.
    have hrecords := records_put hp c
    have hkept : ∀ r, (c.records.get? r).isSome → ((c.put record).records.get? r).isSome := by
      intro r hr
      rw [hrecords]
      split
      · rfl
      · exact hr
    refine ⟨?_, ?_, ?_, ?_, ?_, ?_⟩
    · intro r record' hr
      rw [hrecords] at hr
      split at hr
      next heq =>
        obtain rfl := Option.some.inj hr
        exact heq
      · exact h.keyed hr
    · intro r hr
      rw [hrecords] at hr
      split at hr
      next heq =>
        subst heq
        exact ⟨p, hp, by simp [hp]⟩
      · obtain ⟨q, hq, hmem⟩ := h.listed hr
        refine ⟨q, hq, ?_⟩
        rw [bucket_put]
        split
        · exact List.mem_insert_of_mem hmem
        · exact hmem
    · intro r q hmem
      rw [bucket_put] at hmem
      split at hmem
      next hq =>
        rcases List.mem_insert_iff.1 hmem with rfl | hmem
        · exact ⟨hq, by simp [hrecords]⟩
        · exact ⟨(h.stored hmem).1, hkept r (h.stored hmem).2⟩
      · exact ⟨(h.stored hmem).1, hkept r (h.stored hmem).2⟩
    · intro q
      rw [bucket_put]
      split
      · exact (h.once q).insert
      · exact h.once q
    · simp only [Cache.put, hp]
      exact h.records.insert _ _
    · simp only [Cache.put, hp]
      exact h.buckets.insert _ _

/-- Ensuring a bucket keeps a cache coherent. -/
theorem ensureBucket (h : c.Coherent) (container : Resource) :
    (c.ensureBucket container).Coherent where
  keyed hr := h.keyed (by rwa [records_ensureBucket] at hr)
  listed hr := by simpa using h.listed (by rwa [records_ensureBucket] at hr)
  stored hr := by simpa using h.stored (by rwa [bucket_ensureBucket] at hr)
  once p := by simpa using h.once p
  records := by rw [records_ensureBucket]; exact h.records
  buckets := by
    unfold Cache.ensureBucket
    split
    · exact h.buckets
    · exact h.buckets.insert _ _

/-- A record goes with the bucket that lists it, so the others keep theirs. -/
theorem removeBucket (h : c.Coherent) (container : Resource) :
    (c.removeBucket container).Coherent where
  keyed hr := by
    rw [records_removeBucket] at hr
    split at hr
    · cases hr
    · exact h.keyed hr
  listed {r} hr := by
    rw [records_removeBucket] at hr
    split at hr
    · cases hr
    next hr' =>
      obtain ⟨p, hp, hmem⟩ := h.listed hr
      refine ⟨p, hp, ?_⟩
      rw [bucket_removeBucket, if_neg]
      · exact hmem
      · rintro rfl
        exact hr' hmem
  stored {r p} hr := by
    rw [bucket_removeBucket] at hr
    split at hr
    · cases hr
    next hne =>
      obtain ⟨hp, hsome⟩ := h.stored hr
      refine ⟨hp, ?_⟩
      rw [records_removeBucket, if_neg]
      · exact hsome
      · intro hmem
        exact hne (Option.some.inj (hp.symm.trans (h.stored hmem).1))
  once p := by
    rw [bucket_removeBucket]
    split
    · exact List.nodup_nil
    · exact h.once p
  records := h.records.filter _
  buckets := h.buckets.erase _

end Coherent

end Cache
end StatusCache
