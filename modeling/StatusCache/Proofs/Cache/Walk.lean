/-
# Walks through the buckets

A cache is invalidated by a walk: down from a resource, through the buckets of the containers it
comes to, which are removed once what lies below them has been seen. So the cache changes while it
is walked through. It makes no difference, because every bucket lists children of its own container
(`Cache.Tied`) and so no part of the walk sees a bucket that another part removes: the walk visits
what it would visit in a cache that stays as it is (`Cache.walk`), each resource once, and all in
all it takes the buckets of the visited containers (`Tied.drop_eq`).

Every container that a walk passes has a bucket of its own, so that the number of buckets bounds the
walk, however deep it may go (`Tied.walk_eq_of_le`).
-/

import Mathlib.Data.List.Perm.Subperm
import StatusCache.Proofs.Cache.Coherent

namespace StatusCache

namespace Cache

variable {c c' : Cache} {r m p k : Resource} {levels : Nat} {gone other : List Resource}

/-- Every bucket lists children of its container, each once. -/
structure Tied (c : Cache) : Prop where
  parent : ∀ {m k}, m ∈ c.bucket k → m.parent? = some k
  once : ∀ k, (c.bucket k).Nodup

/-- The buckets of a coherent cache are tied. -/
theorem Coherent.tied (h : c.Coherent) : c.Tied := ⟨fun hm => (h.stored hm).1, h.once⟩

/-- A cache is its records and its buckets. -/
theorem ext : ∀ {c c' : Cache}, c.records = c'.records → c.buckets = c'.buckets → c = c'
  | ⟨_, _⟩, ⟨_, _⟩, rfl, rfl => rfl

/-! ### Removing several buckets -/

/-- The cache without the buckets of some containers and the records that these list. -/
def without (c : Cache) (gone : List Resource) : Cache where
  records := c.records.filter fun m => ∀ k ∈ gone, m ∉ c.bucket k
  buckets := c.buckets.filter fun k => k ∉ gone

/-- Leaving out no bucket changes nothing. -/
@[simp]
theorem without_nil (c : Cache) : c.without [] = c := by
  simp [without, Table.filter]

/-- Removing a bucket is leaving out that one. -/
theorem removeBucket_eq (c : Cache) (k : Resource) : c.removeBucket k = c.without [k] := by
  simp [removeBucket, without, Table.erase, Table.filter]

/-- What is left out has no bucket, and the others keep theirs. -/
theorem buckets_without (c : Cache) (gone : List Resource) (k : Resource) :
    (c.without gone).buckets.get? k = if k ∈ gone then none else c.buckets.get? k := by
  by_cases hk : k ∈ gone <;> simp [without, Table.get?_filter, hk]

/-- What is left out lists nothing, and the others what they did. -/
@[simp]
theorem bucket_without (c : Cache) (gone : List Resource) (k : Resource) :
    (c.without gone).bucket k = if k ∈ gone then [] else c.bucket k := by
  rw [bucket, buckets_without]
  split <;> rfl

/-- A record stays if no bucket that is left out lists it. -/
theorem records_without (c : Cache) (gone : List Resource) (m : Resource) :
    (c.without gone).records.get? m =
      if ∀ k ∈ gone, m ∉ c.bucket k then c.records.get? m else none := by
  simp only [without, Table.get?_filter, decide_eq_true_eq]

/-- What is cached stays if no bucket that is left out lists it. -/
theorem get?_without (c : Cache) (gone : List Resource) (m : Resource) :
    (c.without gone).get? m = if ∃ k ∈ gone, m ∈ c.bucket k then none else c.get? m := by
  have hrecords : (∃ k ∈ gone, m ∈ c.bucket k) ↔ ¬∀ k ∈ gone, m ∉ c.bucket k := by simp
  unfold get?
  cases hp : m.parent? with
  | none => simp
  | some p =>
    simp only [Option.bind_eq_bind, Option.bind_some, bucket_without, records_without]
    by_cases hgone : ∃ k ∈ gone, m ∈ c.bucket k
    · rw [if_pos hgone, if_neg (hrecords.1 hgone), ite_self]
    · rw [if_neg hgone, if_pos (not_not.1 (mt hrecords.2 hgone))]
      by_cases hkept : p ∈ gone
      · have hnot : m ∉ c.bucket p := fun hm => hgone ⟨p, hkept, hm⟩
        simp [hkept, hnot]
      · simp [hkept]

/-- Leaving out some buckets and then others is leaving out both. -/
theorem without_without (c : Cache) (gone other : List Resource) :
    (c.without gone).without other = c.without (gone ++ other) := by
  have hrecords : ∀ m : Resource, (∀ k ∈ gone ++ other, m ∉ c.bucket k) ↔
      (∀ k ∈ gone, m ∉ c.bucket k) ∧ ∀ k ∈ other, m ∉ (c.without gone).bucket k := by
    intro m
    simp only [List.mem_append, or_imp, forall_and, bucket_without]
    refine and_congr_right fun hgone => forall₂_congr fun k _ => ?_
    by_cases hk : k ∈ gone <;> simp [hk, hgone]
  have hbuckets : ∀ k : Resource, k ∉ gone ++ other ↔ k ∉ gone ∧ k ∉ other := by simp
  refine Cache.ext ?_ ?_
  · change ((c.records.filter fun m => ∀ k ∈ gone, m ∉ c.bucket k).filter
      fun m => ∀ k ∈ other, m ∉ (c.without gone).bucket k) =
        c.records.filter fun m => ∀ k ∈ gone ++ other, m ∉ c.bucket k
    simp only [Table.filter_filter, ← Bool.decide_and, hrecords]
  · change ((c.buckets.filter fun k => k ∉ gone).filter fun k => k ∉ other) =
      c.buckets.filter fun k => k ∉ gone ++ other
    simp only [Table.filter_filter, ← Bool.decide_and, hbuckets]

/-- Which of its buckets a cache loses counts, and not in which order or how often. -/
theorem without_eq_iff :
    c.without gone = c.without other ↔ ∀ k, c.hasBucket k → (k ∈ gone ↔ k ∈ other) := by
  have hbuckets : (c.without gone).buckets = (c.without other).buckets ↔
      ∀ k, c.hasBucket k → (k ∈ gone ↔ k ∈ other) := by
    unfold without
    simp only [Table.filter_eq_filter_iff, decide_eq_decide, not_iff_not]
    rfl
  refine ⟨fun h => hbuckets.1 (congrArg buckets h), fun h => Cache.ext ?_ (hbuckets.2 h)⟩
  unfold without
  simp only [Table.filter_eq_filter_iff, decide_eq_decide]
  intro m _
  refine forall_congr' fun k => ?_
  rw [imp_not_comm, @imp_not_comm (k ∈ other)]
  exact forall_congr' fun hm => not_congr (h k (hasBucket_of_mem_bucket hm))

/-- Leaving out buckets keeps the others tied. -/
theorem Tied.without (h : c.Tied) (gone : List Resource) : (c.without gone).Tied where
  parent hm := by
    rw [bucket_without] at hm
    split at hm
    · cases hm
    · exact h.parent hm
  once k := by
    rw [bucket_without]
    split
    · exact List.nodup_nil
    · exact h.once k

/-! ### What a walk visits -/

/-- The resources that a walk of so many levels comes to in a cache that stays as it is, each before
those below it. -/
def walk (c : Cache) : Nat → Resource → List Resource
  | 0, r => [r]
  | levels + 1, r =>
    if r.isContainer then r :: (c.bucket r).flatMap (c.walk levels) else [r]

/-- A walk visits where it starts. -/
theorem self_mem_walk (c : Cache) (levels : Nat) (r : Resource) : r ∈ c.walk levels r := by
  cases levels with
  | zero => exact List.mem_singleton_self r
  | succ levels =>
    rw [walk]
    split <;> exact List.mem_cons_self

/-- A walk with one more level visits what walks from the children do. -/
theorem mem_walk_succ :
    m ∈ c.walk (levels + 1) r ↔
      m = r ∨ ∃ child, (r.isContainer ∧ child ∈ c.bucket r) ∧ m ∈ c.walk levels child := by
  rw [walk]
  by_cases hr : r.isContainer
  · simp [hr]
  · simp [hr]

/-- A walk of one level visits a container and what it lists. -/
theorem mem_walk_one : m ∈ c.walk 1 r ↔ m = r ∨ r.isContainer ∧ m ∈ c.bucket r := by
  rw [mem_walk_succ]
  refine or_congr_right ⟨?_, fun hm => ⟨m, hm, c.self_mem_walk 0 m⟩⟩
  rintro ⟨child, hchild, hm⟩
  obtain rfl := List.mem_singleton.1 hm
  exact hchild

/-- Where fewer buckets are left, a walk comes to nothing else. -/
theorem walk_without_subset (c : Cache) (gone : List Resource) (levels : Nat) (r : Resource) :
    (c.without gone).walk levels r ⊆ c.walk levels r := by
  induction levels generalizing r with
  | zero => exact List.Subset.refl _
  | succ levels ih =>
    intro m hm
    refine mem_walk_succ.2 ((mem_walk_succ.1 hm).imp_right ?_)
    rintro ⟨child, ⟨hr, hchild⟩, hm⟩
    rw [bucket_without] at hchild
    split at hchild
    · cases hchild
    · exact ⟨child, ⟨hr, hchild⟩, ih child hm⟩

/-- With more levels a walk comes to no less. -/
theorem walk_mono {more : Nat} (hle : levels ≤ more) (hm : m ∈ c.walk levels r) :
    m ∈ c.walk more r := by
  induction levels generalizing r more with
  | zero =>
    obtain rfl := List.mem_singleton.1 hm
    exact c.self_mem_walk more m
  | succ levels ih =>
    obtain ⟨more, rfl⟩ : ∃ n, more = n + 1 := ⟨more - 1, by omega⟩
    refine mem_walk_succ.2 ((mem_walk_succ.1 hm).imp_right ?_)
    rintro ⟨child, hstep, hm⟩
    exact ⟨child, hstep, ih (by omega) hm⟩

namespace Tied

/-- A walk stays below the resource it starts from. -/
theorem mem_lineage_of_mem_walk (h : c.Tied) (hm : m ∈ c.walk levels r) : r ∈ m.lineage := by
  induction levels generalizing r with
  | zero => exact List.mem_singleton.1 hm ▸ m.self_mem_lineage
  | succ levels ih =>
    rcases mem_walk_succ.1 hm with rfl | ⟨child, ⟨-, hchild⟩, hm⟩
    · exact m.self_mem_lineage
    · exact Resource.mem_lineage_trans
        ((Resource.mem_lineage_of_parent? (h.parent hchild)).2 (.inr r.self_mem_lineage)) (ih hm)

/-- A walk only sees the buckets of what lies below its start. -/
theorem walk_congr (h : c.Tied) (hsame : ∀ k, r ∈ k.lineage → c'.bucket k = c.bucket k) :
    c'.walk levels r = c.walk levels r := by
  induction levels generalizing r with
  | zero => rfl
  | succ levels ih =>
    have hbelow : ∀ child ∈ c.bucket r, c'.walk levels child = c.walk levels child :=
      fun child hchild => ih fun k hk => hsame k (Resource.mem_lineage_trans
        ((Resource.mem_lineage_of_parent? (h.parent hchild)).2 (.inr r.self_mem_lineage)) hk)
    rw [walk, walk, hsame r r.self_mem_lineage, List.flatMap_congr hbelow]

/-- Two children of one container have nothing below both of them. -/
theorem eq_of_mem_walk {child sibling : Resource} (h : c.Tied)
    (hchild : child.parent? = some p) (hsibling : sibling.parent? = some p)
    (hm : m ∈ c.walk levels child) (hbelow : sibling ∈ m.lineage) : child = sibling := by
  refine Resource.eq_of_mem_lineage (h.mem_lineage_of_mem_walk hm) hbelow ?_
  rw [Resource.length_ancestors_of_parent? hchild, Resource.length_ancestors_of_parent? hsibling]

/-- **A walk visits every resource once.** -/
theorem nodup_walk (h : c.Tied) (levels : Nat) (r : Resource) : (c.walk levels r).Nodup := by
  induction levels generalizing r with
  | zero => exact List.nodup_singleton r
  | succ levels ih =>
    rw [walk]
    split
    · have hbelow : ∀ m ∈ (c.bucket r).flatMap (c.walk levels), r ∈ m.ancestors := by
        intro m hm
        obtain ⟨child, hchild, hm⟩ := List.mem_flatMap.1 hm
        have hparent := h.parent hchild
        rcases List.mem_cons.1 (h.mem_lineage_of_mem_walk hm) with rfl | habove
        · exact Resource.parent?_mem_ancestors hparent
        · exact Resource.mem_ancestors_trans (Resource.parent?_mem_ancestors hparent) habove
      refine List.nodup_cons.2 ⟨fun hr => r.not_mem_ancestors_self (hbelow r hr),
        List.nodup_flatMap.2 ⟨fun child _ => ih child, ?_⟩⟩
      refine (h.once r).imp_of_mem fun {child sibling} hchild hsibling hne m hm hm' => hne ?_
      exact h.eq_of_mem_walk (h.parent hchild) (h.parent hsibling) hm
        (h.mem_lineage_of_mem_walk hm')
    · exact List.nodup_singleton r

end Tied

/-! ### What a walk removes -/

/-- One step of the walk over the children of a container. -/
def dropNext (levels : Nat) (acc : List Resource × Cache) (child : Resource) :
    List Resource × Cache :=
  (acc.1 ++ (acc.2.drop levels child).1, (acc.2.drop levels child).2)

/-- Without levels, dropping takes away one bucket. -/
theorem drop_zero (c : Cache) (r : Resource) :
    c.drop 0 r = ([r], if r.isContainer then c.removeBucket r else c) := by
  rw [drop]

/-- With one more level, dropping goes on to the children first. -/
theorem drop_succ (c : Cache) (levels : Nat) (r : Resource) :
    c.drop (levels + 1) r =
      if r.isContainer then
        (r :: ((c.bucket r).foldl (dropNext levels) ([], c)).1,
          ((c.bucket r).foldl (dropNext levels) ([], c)).2.removeBucket r)
      else ([r], c) := by
  rw [drop]
  rfl

/-- A walk only ever removes buckets. -/
theorem drop_induction {motive : Cache → Prop}
    (step : ∀ c k, motive c → motive (c.removeBucket k)) (r : Resource)
    (h : motive c) : motive (c.drop levels r).2 := by
  induction levels generalizing c r with
  | zero =>
    rw [drop_zero]
    split
    · exact step c r h
    · exact h
  | succ levels ih =>
    have hwalk : ∀ (rs : List Resource) (acc : List Resource × Cache), motive acc.2 →
        motive (rs.foldl (dropNext levels) acc).2 := by
      intro rs
      induction rs with
      | nil => exact fun acc hacc => hacc
      | cons child rs ihrs => exact fun acc hacc => ihrs _ (ih child hacc)
    rw [drop_succ]
    split
    · exact step _ r (hwalk _ ([], c) h)
    · exact h

/-- Dropping keeps a cache coherent. -/
theorem Coherent.drop (h : c.Coherent) (levels : Nat) (r : Resource) :
    (c.drop levels r).2.Coherent :=
  drop_induction (fun _ k hc => hc.removeBucket k) r h

/-- The walk over siblings visits what lies below each of them: nothing that is gone already lies
below the siblings still to come. -/
theorem Tied.siblings_eq (h : c.Tied)
    (ih : ∀ (c : Cache) (r : Resource), c.Tied →
      c.drop levels r = (c.walk levels r, c.without ((c.walk levels r).filter (·.isContainer))))
    {rs : List Resource} (hparent : ∀ child ∈ rs, child.parent? = some p) (hnodup : rs.Nodup)
    (visited gone : List Resource) (hapart : ∀ child ∈ rs, ∀ k ∈ gone, child ∉ k.lineage) :
    rs.foldl (dropNext levels) (visited, c.without gone) =
      (visited ++ rs.flatMap (c.walk levels),
        c.without (gone ++ (rs.flatMap (c.walk levels)).filter (·.isContainer))) := by
  induction rs generalizing visited gone with
  | nil => simp
  | cons child rs ihrs =>
    obtain ⟨hnot, hnodup⟩ := List.nodup_cons.1 hnodup
    have hsame : (c.without gone).walk levels child = c.walk levels child :=
      h.walk_congr fun k hk => by
        rw [bucket_without, if_neg fun hgone => hapart child List.mem_cons_self k hgone hk]
    have hnext : dropNext levels (visited, c.without gone) child =
        (visited ++ c.walk levels child,
          c.without (gone ++ (c.walk levels child).filter (·.isContainer))) := by
      rw [dropNext, ih _ child (h.without gone), hsame, without_without]
    rw [List.foldl_cons, hnext, ihrs (fun sibling hs => hparent sibling (List.mem_cons_of_mem _ hs))
      hnodup]
    · simp only [List.flatMap_cons, List.filter_append, List.append_assoc]
    · intro sibling hs k hk hbelow
      rcases List.mem_append.1 hk with hk | hk
      · exact hapart sibling (List.mem_cons_of_mem _ hs) k hk hbelow
      · have heq := h.eq_of_mem_walk (hparent child List.mem_cons_self)
          (hparent sibling (List.mem_cons_of_mem _ hs)) (List.mem_filter.1 hk).1 hbelow
        exact hnot (heq ▸ hs)

/-- **A walk through a cache that changes under it is a walk through the cache it starts from**, and
what it removes are the buckets of the containers it visits. -/
theorem Tied.drop_eq (h : c.Tied) (levels : Nat) (r : Resource) :
    c.drop levels r =
      (c.walk levels r, c.without ((c.walk levels r).filter (·.isContainer))) := by
  induction levels generalizing c r with
  | zero =>
    rw [drop_zero, walk]
    by_cases hr : r.isContainer
    · simp [hr, removeBucket_eq]
    · simp [hr]
  | succ levels ih =>
    rw [drop_succ, walk]
    by_cases hr : r.isContainer
    · have hbelow := h.siblings_eq (fun c r hc => ih hc r) (fun child hchild => h.parent hchild)
        (h.once r) [] [] (by simp)
      rw [without_nil] at hbelow
      rw [if_pos hr, if_pos hr, hbelow, removeBucket_eq, without_without, List.nil_append,
        List.nil_append, List.filter_cons_of_pos (by exact hr)]
      exact congrArg _ (without_eq_iff.2 fun k _ => by simp [or_comm])
    · simp [hr]

/-! ### How deep a walk goes -/

namespace Tied

/-- What a walk visits lies at most as many levels below its start as there are buckets: each
container passed on the way has one. -/
theorem height_le (h : c.Tied) (hm : m ∈ c.walk levels r) :
    m.ancestors.length ≤ r.ancestors.length + c.buckets.size := by
  suffices ∃ passed : List Resource, passed.Nodup ∧ passed ⊆ c.buckets.keys ∧
      (∀ k ∈ passed, r ∈ k.lineage) ∧
      m.ancestors.length = r.ancestors.length + passed.length by
    obtain ⟨passed, hnodup, hkeys, -, hlength⟩ := this
    have := (List.subperm_of_subset hnodup hkeys).length_le
    rw [Table.length_keys] at this
    omega
  induction levels generalizing r with
  | zero =>
    obtain rfl := List.mem_singleton.1 hm
    exact ⟨[], List.nodup_nil, List.nil_subset _, by simp, rfl⟩
  | succ levels ih =>
    rcases mem_walk_succ.1 hm with rfl | ⟨child, ⟨-, hchild⟩, hm⟩
    · exact ⟨[], List.nodup_nil, List.nil_subset _, by simp, rfl⟩
    · have hparent := h.parent hchild
      have hup := Resource.length_ancestors_of_parent? hparent
      have hkey : r ∈ c.buckets.keys := Table.mem_keys.2 (hasBucket_of_mem_bucket hchild)
      obtain ⟨passed, hnodup, hkeys, hbelow, hlength⟩ := ih hm
      refine ⟨r :: passed, List.nodup_cons.2 ⟨fun hr => ?_, hnodup⟩,
        List.cons_subset.2 ⟨hkey, hkeys⟩, ?_, ?_⟩
      · have := Resource.length_ancestors_le (hbelow r hr)
        omega
      · simp only [List.forall_mem_cons]
        exact ⟨r.self_mem_lineage, fun k hk => Resource.mem_lineage_trans
          ((Resource.mem_lineage_of_parent? hparent).2 (.inr r.self_mem_lineage)) (hbelow k hk)⟩
      · rw [List.length_cons]
        omega

/-- Where nothing lies deeper than some levels, a walk of more levels visits nothing more. -/
theorem walk_eq_of_height (h : c.Tied) {n : Nat}
    (hheight : ∀ {levels m}, m ∈ c.walk levels r → m.ancestors.length ≤ r.ancestors.length + n)
    (hle : n ≤ levels) : c.walk levels r = c.walk n r := by
  induction n generalizing r levels with
  | zero =>
    cases levels with
    | zero => rfl
    | succ levels =>
      rw [walk, walk]
      split
      next hr =>
        have hnone : c.bucket r = [] := by
          refine List.eq_nil_iff_forall_not_mem.2 fun child hchild => ?_
          have := hheight (mem_walk_succ.2
            (.inr ⟨child, ⟨hr, hchild⟩, c.self_mem_walk 0 child⟩))
          rw [Resource.length_ancestors_of_parent? (h.parent hchild)] at this
          omega
        rw [hnone, List.flatMap_nil]
      · rfl
  | succ n ih =>
    obtain ⟨levels, rfl⟩ : ∃ l, levels = l + 1 := ⟨levels - 1, by omega⟩
    rw [walk, walk]
    split
    next hr =>
      refine congrArg (r :: ·) (List.flatMap_congr fun child hchild => ?_)
      refine ih (fun {levels m} hm => ?_) (by omega)
      have := hheight (mem_walk_succ.2 (.inr ⟨child, ⟨hr, hchild⟩, hm⟩))
      rw [Resource.length_ancestors_of_parent? (h.parent hchild)]
      omega
    · rfl

/-- **No walk goes deeper than there are buckets.** -/
theorem walk_eq_of_le (h : c.Tied) (hle : c.buckets.size ≤ levels) :
    c.walk levels r = c.walk c.buckets.size r :=
  h.walk_eq_of_height (fun hm => h.height_le hm) hle

end Tied

end Cache
end StatusCache
