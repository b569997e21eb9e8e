/-
# Refreshes in another order

A refresh takes its resources one after the other, and what it does for one of them depends on the
buckets that are still there at its turn. All that one turn does is to visit resources and to remove
buckets, so a refresh leaves the state that its trail tells (`Storage.trail`, `behind_trail`): the
resources it has visited, and the containers whose buckets are gone.

Without levels to walk down, and from topmost resources with nothing in each other's way, the trail
visits the same in every order. With one level it need not: to refresh a resource removes the bucket
of its parent, and those of its children. If that parent or child is among the resources to refresh
and comes later, what its bucket lists is not visited any more, and the buckets below stay.
`refresh_order_iff` says when this shows.
-/

import StatusCache.Proofs.Cache.Footprint
import StatusCache.Proofs.Storage.InFlight
import StatusCache.Proofs.Storage.Operation

namespace StatusCache

open Cache (Tied)

namespace Storage

variable {st : State} {c : Cache} {n : Nat} {depth : Depth}
  {rs rs' t t' : List Resource} {r k m x : Resource}

/-! ### The trail of a refresh -/

/-- The containers that lose their buckets when some resources are refreshed and others are visited
on the way: the visited ones, and the parents of the refreshed ones. -/
def emptied (rs visited : List Resource) : List Resource :=
  visited.filter (·.isContainer) ++ rs.filterMap Resource.parent?

/-- The resources that a refresh visits, the last refreshed one first, in a cache that had the
buckets of `c` before: from each of them on, what the buckets lead to that are left at its turn. -/
def trail (c : Cache) (n : Nat) : List Resource → List Resource
  | [] => []
  | r :: earlier =>
    trail c n earlier ++ (c.without (emptied earlier (trail c n earlier))).walk n r

/-- The state that is left of another one when some resources are refreshed and others are visited
on the way. -/
def behind (st : State) (rs visited : List Resource) : State :=
  { st with
    cache := st.cache.without (emptied rs visited)
    switched := ⟨st.switched.urls.filter fun path => path ∉ visited.map Resource.path⟩ }

/-- The containers that are emptied. -/
theorem mem_emptied :
    k ∈ emptied rs t ↔ k.isContainer ∧ k ∈ t ∨ ∃ r ∈ rs, r.parent? = some k := by
  rw [emptied, List.mem_append, List.mem_filter, List.mem_filterMap, and_comm]

/-- Removing visited resources removes their paths from the index. -/
theorem foldl_remove (visited : List Resource) (x : Switched) :
    visited.foldl Switched.remove x =
      ⟨x.urls.filter fun path => path ∉ visited.map Resource.path⟩ := by
  induction visited generalizing x with
  | nil => simp [Table.filter]
  | cons r visited ih =>
    have herase : (x.remove r).urls = x.urls.filter fun path => path ≠ r.path := rfl
    rw [List.foldl_cons, ih, herase]
    simp only [Table.filter_filter, ← Bool.decide_and, List.map_cons, List.mem_cons, not_or]

/-- Refreshing one resource more goes on from the buckets that are left. -/
theorem refreshOne_behind (h : st.cache.Tied) (depth : Depth) (r : Resource)
    (earlier visited : List Resource) :
    refreshOne depth (behind st earlier visited) r = behind st (r :: earlier)
      (visited ++ (st.cache.without (emptied earlier visited)).walk (st.cache.levels depth) r) := by
  have hinvalidate := (h.without (emptied earlier visited)).invalidate_eq r depth
  rw [h.walk_levels_without] at hinvalidate
  unfold refreshOne
  simp only [behind, hinvalidate, foldl_remove]
  congr 1
  · generalize (st.cache.without (emptied earlier visited)).walk (st.cache.levels depth) r = seen
    cases hp : r.parent? with
    | none =>
      rw [Cache.without_without]
      exact Cache.without_eq_iff.2 fun k _ => by
        simp only [emptied, List.filterMap_cons_none hp, List.filter_append, List.mem_append,
          or_assoc, or_comm, or_left_comm]
    | some parent =>
      simp only [Cache.removeBucket_eq, Cache.without_without]
      exact Cache.without_eq_iff.2 fun k _ => by
        simp only [emptied, List.filterMap_cons_some hp, List.filter_append, List.mem_append,
          List.mem_cons, List.not_mem_nil, false_or, or_assoc, or_comm, or_left_comm]
  · simp only [Table.filter_filter, ← Bool.decide_and, List.map_append, List.mem_append, not_or]

/-- **A refresh leaves the state that its trail tells.** -/
theorem foldl_refreshOne (h : st.cache.Tied) (depth : Depth) (rs : List Resource) :
    rs.foldl (refreshOne depth) st =
      behind st rs.reverse (trail st.cache (st.cache.levels depth) rs.reverse) := by
  induction rs using List.reverseRecOn with
  | nil => simp [behind, emptied, trail, Table.filter]
  | append_singleton rs r ih =>
    rw [List.foldl_append, ih, List.reverse_append, List.reverse_singleton, List.singleton_append]
    exact refreshOne_behind h depth r rs.reverse _

/-- The caches that are left are equal if the same buckets are emptied. -/
theorem behind_cache_eq_iff :
    (behind st rs t).cache = (behind st rs' t').cache ↔
      ∀ k, st.cache.hasBucket k → (k ∈ emptied rs t ↔ k ∈ emptied rs' t') :=
  Cache.without_eq_iff

/-- The indexes that are left are equal if the same paths are visited. -/
theorem behind_switched_eq_iff :
    (behind st rs t).switched = (behind st rs' t').switched ↔
      ∀ path, Indexed st path → (path ∈ t.map Resource.path ↔ path ∈ t'.map Resource.path) := by
  simp only [behind, Switched.mk.injEq, Table.filter_eq_filter_iff, decide_eq_decide, not_iff_not]
  rfl

/-- Resources that are visited alike leave the same state. -/
theorem behind_congr (hrs : ∀ r, r ∈ rs ↔ r ∈ rs') (ht : ∀ k, k ∈ t ↔ k ∈ t') :
    behind st rs t = behind st rs' t' := by
  have hcache : (behind st rs t).cache = (behind st rs' t').cache :=
    behind_cache_eq_iff.2 fun k _ => by simp only [mem_emptied, hrs, ht]
  have hswitched : (behind st rs t).switched = (behind st rs' t').switched :=
    behind_switched_eq_iff.2 fun path _ => by simp only [List.mem_map, ht]
  exact congrArg₂ (fun c x => { st with cache := c, switched := x }) hcache hswitched

/-! ### What is on a trail -/

/-- A refresh visits what the earlier ones do, and a walk through what they left. -/
theorem mem_trail_cons : k ∈ trail c n (r :: rs) ↔
    k ∈ trail c n rs ∨ k ∈ (c.without (emptied rs (trail c n rs))).walk n r :=
  List.mem_append

/-- A refresh visits its resources. -/
theorem self_mem_trail (hr : r ∈ rs) : r ∈ trail c n rs := by
  induction rs with
  | nil => cases hr
  | cons first rs ih =>
    rcases List.mem_cons.1 hr with rfl | hr
    · exact mem_trail_cons.2 (.inr (Cache.self_mem_walk _ n r))
    · exact mem_trail_cons.2 (.inl (ih hr))

/-- A trail leads nowhere that the buckets did not lead to before. -/
theorem exists_of_mem_trail (h : k ∈ trail c n rs) : ∃ r ∈ rs, k ∈ c.walk n r := by
  induction rs with
  | nil => cases h
  | cons r rs ih =>
    rcases mem_trail_cons.1 h with h | h
    · obtain ⟨x, hx, hk⟩ := ih h
      exact ⟨x, List.mem_cons_of_mem r hx, hk⟩
    · exact ⟨r, List.mem_cons_self, c.walk_without_subset _ n r h⟩

/-- What was visited stays visited. -/
theorem mem_trail_append (h : k ∈ trail c n rs) (later : List Resource) :
    k ∈ trail c n (later ++ rs) := by
  induction later with
  | nil => exact h
  | cons r later ih => exact mem_trail_cons.2 (.inl ih)

/-- What was emptied stays emptied. -/
theorem mem_emptied_append (h : k ∈ emptied rs (trail c n rs)) (later : List Resource) :
    k ∈ emptied (later ++ rs) (trail c n (later ++ rs)) := by
  rw [mem_emptied] at h ⊢
  refine h.imp (fun ⟨hk, h⟩ => ⟨hk, mem_trail_append h later⟩) ?_
  rintro ⟨r, hr, hp⟩
  exact ⟨r, List.mem_append_right later hr, hp⟩

/-- Without levels a refresh visits its resources alone. -/
theorem mem_trail_zero : k ∈ trail c 0 rs ↔ k ∈ rs := by
  refine ⟨fun h => ?_, self_mem_trail⟩
  obtain ⟨r, hr, hk⟩ := exists_of_mem_trail h
  exact List.mem_singleton.1 hk ▸ hr

/-- Resources with nothing in each other's way are visited with all that lies below them. -/
theorem mem_trail_of_apart (h : c.Tied) (hapart : ∀ a ∈ rs, ∀ r ∈ rs, r ∉ a.ancestors) :
    k ∈ trail c n rs ↔ ∃ r ∈ rs, k ∈ c.walk n r := by
  refine ⟨exists_of_mem_trail, ?_⟩
  induction rs with
  | nil => simp
  | cons first rs ih =>
    rintro ⟨r, hr, hk⟩
    by_cases hlater : r ∈ rs
    · exact mem_trail_cons.2 (.inl (ih (fun a ha x hx =>
        hapart a (List.mem_cons_of_mem _ ha) x (List.mem_cons_of_mem _ hx)) ⟨r, hlater, hk⟩))
    · obtain rfl := (List.mem_cons.1 hr).resolve_right hlater
      have hbeside : ∀ x ∈ rs, r ∉ x.lineage ∧ x ∉ r.lineage := fun x hx => by
        have hne : x ≠ r := fun heq => hlater (heq ▸ hx)
        simp only [Resource.lineage, List.mem_cons, not_or]
        exact ⟨⟨hne.symm, hapart x (List.mem_cons_of_mem r hx) r hr⟩,
          hne, hapart r hr x (List.mem_cons_of_mem r hx)⟩
      refine mem_trail_cons.2 (.inr ?_)
      rwa [h.walk_congr fun l hl => ?_]
      rw [Cache.bucket_without, if_neg fun hempty => ?_]
      rcases mem_emptied.1 hempty with ⟨-, hmem⟩ | ⟨x, hx, hp⟩
      · obtain ⟨x, hx, hlx⟩ := exists_of_mem_trail hmem
        rcases Resource.mem_lineage_total (h.mem_lineage_of_mem_walk hlx) hl with hup | hup
        · exact (hbeside x hx).2 hup
        · exact (hbeside x hx).1 hup
      · exact (hbeside x hx).1 ((Resource.mem_lineage_of_parent? hp).2 (.inr hl))

/-! ### One level -/

/-- Another one of the resources to refresh is right below `r`, or it is right above and its bucket
lists `r`. -/
def Adjoins (c : Cache) (rs : List Resource) (r : Resource) : Prop :=
  (∃ x ∈ rs, x.parent? = some r) ∨ ∃ q ∈ rs, r ∈ c.bucket q

/-- What the bucket of a resource lists is visited, unless another one adjoins it. -/
theorem mem_trail_or_adjoins (hr : r ∈ rs) (hm : m ∈ c.walk 1 r) :
    m ∈ trail c 1 rs ∨ Adjoins c rs r := by
  induction rs with
  | nil => cases hr
  | cons first rs ih =>
    by_cases hlater : r ∈ rs
    · refine (ih hlater).imp (fun h => mem_trail_cons.2 (.inl h)) (Or.imp ?_ ?_)
      all_goals exact fun ⟨x, hx, hadjoins⟩ => ⟨x, List.mem_cons_of_mem _ hx, hadjoins⟩
    · obtain rfl := (List.mem_cons.1 hr).resolve_right hlater
      by_cases hempty : r ∈ emptied rs (trail c 1 rs)
      · right
        rcases mem_emptied.1 hempty with ⟨-, hmem⟩ | ⟨x, hx, hp⟩
        · obtain ⟨q, hq, hwalk⟩ := exists_of_mem_trail hmem
          rcases Cache.mem_walk_one.1 hwalk with rfl | ⟨-, hlists⟩
          · exact absurd hq hlater
          · exact .inr ⟨q, List.mem_cons_of_mem _ hq, hlists⟩
        · exact .inl ⟨x, List.mem_cons_of_mem _ hx, hp⟩
      · left
        refine mem_trail_cons.2 (.inr ?_)
        rwa [Cache.mem_walk_one, Cache.bucket_without, if_neg hempty, ← Cache.mem_walk_one]

/-- Once its bucket is gone, a resource leads nowhere: what is visited is refreshed itself, or it is
listed by another bucket. -/
theorem of_mem_trail_append_singleton (hne : x ≠ r) (hr : r ∈ emptied [x] (trail c 1 [x]))
    {later : List Resource} (hm : m ∈ trail c 1 (later ++ [x])) :
    m ∈ later ++ [x] ∨ ∃ q ∈ later ++ [x], q ≠ r ∧ m ∈ c.bucket q := by
  induction later with
  | nil =>
    obtain ⟨q, hq, hwalk⟩ := exists_of_mem_trail hm
    obtain rfl := List.mem_singleton.1 hq
    exact (Cache.mem_walk_one.1 hwalk).imp (fun h => by simp [h])
      fun ⟨_, hlists⟩ => ⟨q, List.mem_singleton_self q, hne, hlists⟩
  | cons y later ih =>
    rcases mem_trail_cons.1 hm with hm | hm
    · refine (ih hm).imp (List.mem_cons_of_mem y) ?_
      rintro ⟨q, hq, hlists⟩
      exact ⟨q, List.mem_cons_of_mem y hq, hlists⟩
    · rcases Cache.mem_walk_one.1 hm with rfl | ⟨-, hlists⟩
      · exact .inl List.mem_cons_self
      · rw [Cache.bucket_without] at hlists
        split at hlists
        · cases hlists
        next hkept =>
          refine .inr ⟨y, List.mem_cons_self, ?_, hlists⟩
          rintro rfl
          exact hkept (mem_emptied_append hr later)

/-- What may be missed in the range of a refresh: what the bucket of a refreshed resource lists that
another one adjoins. -/
def Missable (c : Cache) (rs : List Resource) (m : Resource) : Prop :=
  ∃ r ∈ rs, Adjoins c rs r ∧ m ∈ c.bucket r

/-- What may be missed does not depend on the order. -/
theorem missable_congr (h : ∀ r, r ∈ rs ↔ r ∈ rs') : Missable c rs m ↔ Missable c rs' m := by
  simp only [Missable, Adjoins, h]

/-- With one level, what is in range is visited or may be missed. -/
theorem mem_trail_or_missable (hr : r ∈ rs) (hm : m ∈ c.walk 1 r) :
    m ∈ trail c 1 rs ∨ Missable c rs m := by
  rcases Cache.mem_walk_one.1 hm with rfl | ⟨-, hlists⟩
  · exact .inl (self_mem_trail hr)
  · exact (mem_trail_or_adjoins hr hm).imp_right fun hadjoins => ⟨r, hr, hadjoins, hlists⟩

/-- A member may be moved to the end. -/
theorem perm_erase_append (hx : x ∈ rs) : (rs.erase x ++ [x]).Perm rs :=
  (List.perm_append_singleton x (rs.erase x)).trans (List.perm_cons_erase hx).symm

/-- What may be missed is visited in one order of the resources. -/
theorem Missable.exists_visited (h : c.Tied) (hm : Missable c rs m) :
    ∃ rs', rs'.Perm rs ∧ m ∈ trail c 1 rs' := by
  obtain ⟨r, hr, -, hlists⟩ := hm
  refine ⟨rs.erase r ++ [r], perm_erase_append hr, mem_trail_append ?_ _⟩
  have hcontainer := Resource.isContainer_of_parent? (h.parent hlists)
  refine mem_trail_cons.2 (.inr ?_)
  rw [emptied, trail, List.filter_nil, List.filterMap_nil, List.append_nil, Cache.without_nil]
  exact Cache.mem_walk_one.2 (.inr ⟨hcontainer, hlists⟩)

/-- In another order, nothing is visited below the parent of what may be missed, but what is
refreshed itself. -/
theorem Missable.exists_missed (h : c.Tied) (hm : Missable c rs m) :
    ∃ rs', rs'.Perm rs ∧
      ∀ k ∈ trail c 1 rs', k ∈ rs ∨ ∃ q ∈ rs, m.parent? ≠ some q ∧ k ∈ c.bucket q := by
  obtain ⟨r, hr, hadjoins, hlists⟩ := hm
  have hparent := h.parent hlists
  have hself : ∀ {a b : Resource}, a.parent? = some b → a ≠ b := by
    rintro a _ hp rfl
    exact a.not_mem_ancestors_self (Resource.parent?_mem_ancestors hp)
  obtain ⟨x, hx, hne, hempty⟩ :
      ∃ x ∈ rs, x ≠ r ∧ r ∈ emptied [x] (trail c 1 [x]) := by
    rcases hadjoins with ⟨x, hx, hp⟩ | ⟨q, hq, hqr⟩
    · exact ⟨x, hx, hself hp, mem_emptied.2 (.inr ⟨x, List.mem_singleton_self x, hp⟩)⟩
    · refine ⟨q, hq, (hself (h.parent hqr)).symm, mem_emptied.2 (.inl
        ⟨Resource.isContainer_of_parent? hparent, mem_trail_cons.2 (.inr ?_)⟩)⟩
      rw [emptied, trail, List.filter_nil, List.filterMap_nil, List.append_nil, Cache.without_nil]
      exact Cache.mem_walk_one.2 (.inr ⟨Resource.isContainer_of_parent? (h.parent hqr), hqr⟩)
  have hperm := perm_erase_append hx
  refine ⟨_, hperm, fun k hk => ?_⟩
  refine (of_mem_trail_append_singleton hne hempty hk).imp hperm.mem_iff.1 ?_
  rintro ⟨q, hq, hqr, hk⟩
  exact ⟨q, hperm.mem_iff.1 hq, fun hp => hqr (Option.some.inj (hp.symm.trans hparent)), hk⟩

/-! ### The state after a refresh -/

/-- A refresh leaves what its trail leaves. -/
theorem refreshed_eq (h : st.cache.Tied) (depth : Depth) (rs : List Resource) :
    refreshed rs depth st = behind st (if depth = .infinite then Resource.topmost rs else rs).reverse
      (trail st.cache (st.cache.levels depth)
        (if depth = .infinite then Resource.topmost rs else rs).reverse) :=
  foldl_refreshOne h depth _

/-- A refresh of one level leaves what its trail leaves. -/
theorem refreshed_one (h : st.cache.Tied) (rs : List Resource) :
    refreshed rs .one st = behind st rs.reverse (trail st.cache 1 rs.reverse) :=
  refreshed_eq h .one rs

/-- The topmost ones do not depend on the order. -/
theorem mem_topmost_congr (h : ∀ r, r ∈ rs ↔ r ∈ rs') (r : Resource) :
    r ∈ Resource.topmost rs ↔ r ∈ Resource.topmost rs' := by
  simp only [Resource.mem_topmost, h]

/-- Without a level to walk down, or from topmost resources, the order does not count. -/
theorem refreshed_perm (h : st.cache.Tied) (hdepth : depth ≠ .one) (hrs : ∀ r ∈ rs, r.Named)
    (hperm : rs'.Perm rs) : refreshed rs' depth st = refreshed rs depth st := by
  rw [refreshed_eq h, refreshed_eq h]
  cases depth with
  | one => exact absurd rfl hdepth
  | zero =>
    have hmem : ∀ r, r ∈ rs'.reverse ↔ r ∈ rs.reverse := fun r => by
      rw [List.mem_reverse, List.mem_reverse, hperm.mem_iff]
    exact behind_congr hmem fun k => mem_trail_zero.trans ((hmem k).trans mem_trail_zero.symm)
  | infinite =>
    have hmem : ∀ r, r ∈ (Resource.topmost rs').reverse ↔ r ∈ (Resource.topmost rs).reverse :=
      fun r => by
        rw [List.mem_reverse, List.mem_reverse, mem_topmost_congr fun r => hperm.mem_iff]
    have hapart : ∀ a ∈ (Resource.topmost rs).reverse, ∀ r ∈ (Resource.topmost rs).reverse,
        r ∉ a.ancestors := fun a ha r hr =>
      apart_topmost (fun r hr _ ha => (hrs r hr).isAncestorOf_of_mem_ancestors ha)
        (List.mem_reverse.1 ha) (List.mem_reverse.1 hr)
    refine behind_congr hmem fun k => ?_
    rw [if_pos rfl, if_pos rfl, mem_trail_of_apart h hapart, mem_trail_of_apart h
      fun a ha r hr => hapart a ((hmem a).1 ha) r ((hmem r).1 hr)]
    simp only [hmem]

/-- With one level, two orders that leave the same differ in no bucket or path that counts. -/
theorem forall_perm_refreshed (h : st.cache.Tied) {P : State → State → Prop} :
    (∀ rs', rs'.Perm rs → P (refreshed rs' .one st) (refreshed rs .one st)) ↔
      ∀ rs', rs'.Perm rs → P (behind st rs' (trail st.cache 1 rs'))
        (behind st rs.reverse (trail st.cache 1 rs.reverse)) := by
  constructor
  · intro hall rs' hperm
    have := hall rs'.reverse ((List.reverse_perm rs').trans hperm)
    rwa [refreshed_one h, refreshed_one h, List.reverse_reverse] at this
  · intro hall rs' hperm
    rw [refreshed_one h, refreshed_one h]
    exact hall rs'.reverse ((List.reverse_perm rs').trans hperm)

/-- With one level, the cache is left the same in every order if and only if the containers that may
be missed have no buckets, or lose them anyway. -/
theorem refreshed_cache_iff (h : st.cache.Tied) (rs : List Resource) :
    (∀ rs', rs'.Perm rs → (refreshed rs' .one st).cache = (refreshed rs .one st).cache) ↔
      ∀ m, Missable st.cache rs m → m.isContainer → st.cache.hasBucket m →
        m ∈ rs ∨ ∃ x ∈ rs, x.parent? = some m := by
  rw [forall_perm_refreshed h (P := fun st st' => st.cache = st'.cache)]
  constructor
  · intro hsame m hm hcontainer hbucket
    -- Two orders that disagree about `m`: one visits it, the other misses it.
    obtain ⟨visits, hvisits, hvisited⟩ := hm.exists_visited h
    obtain ⟨misses, hmisses, hmissed⟩ := hm.exists_missed h
    have heq := (hsame visits hvisits).trans (hsame misses hmisses).symm
    have hempty := (behind_cache_eq_iff.1 heq m hbucket).1
      (mem_emptied.2 (.inl ⟨hcontainer, hvisited⟩))
    rcases mem_emptied.1 hempty with ⟨-, hmem⟩ | ⟨x, hx, hp⟩
    · exact .inl ((hmissed m hmem).resolve_right fun ⟨q, _, hne, hlists⟩ =>
        hne (h.parent hlists))
    · exact .inr ⟨x, hmisses.mem_iff.1 hx, hp⟩
  · intro hmissable
    -- Whatever the order is, these are the containers with a bucket to lose.
    have hempty : ∀ rs', (∀ r, r ∈ rs' ↔ r ∈ rs) → ∀ k, st.cache.hasBucket k →
        (k ∈ emptied rs' (trail st.cache 1 rs') ↔
          k.isContainer ∧ (∃ r ∈ rs, k ∈ st.cache.walk 1 r) ∨
            ∃ r ∈ rs, r.parent? = some k) := by
      intro rs' hmem k hbucket
      simp only [mem_emptied, hmem]
      constructor
      · refine Or.imp_left (And.imp_right fun hk => ?_)
        simpa only [hmem] using exists_of_mem_trail hk
      · rintro (⟨hcontainer, r, hr, hk⟩ | hp)
        · rcases mem_trail_or_missable ((hmem r).2 hr) hk with hk | hm
          · exact .inl ⟨hcontainer, hk⟩
          · rw [missable_congr hmem] at hm
            exact (hmissable k hm hcontainer hbucket).imp_left
              fun hk => ⟨hcontainer, self_mem_trail ((hmem k).2 hk)⟩
        · exact .inr hp
    intro rs' hperm
    refine behind_cache_eq_iff.2 fun k hbucket => ?_
    rw [hempty rs' (fun r => hperm.mem_iff) k hbucket,
      hempty rs.reverse (fun r => List.mem_reverse) k hbucket]

/-- With one level, the index is left the same in every order if what may be missed has no URL, or
loses it anyway. -/
theorem refreshed_switched_of_missable (h : st.cache.Tied)
    (hmissable : ∀ m, Missable st.cache rs m → Indexed st m.path → ∃ x ∈ rs, x.path = m.path)
    (hperm : rs'.Perm rs) :
    (refreshed rs' .one st).switched = (refreshed rs .one st).switched := by
  have hvisited : ∀ rs', (∀ r, r ∈ rs' ↔ r ∈ rs) → ∀ path, Indexed st path →
      (path ∈ (trail st.cache 1 rs').map Resource.path ↔
        ∃ r ∈ rs, ∃ k ∈ st.cache.walk 1 r, k.path = path) := by
    intro rs' hmem path hurl
    rw [List.mem_map]
    constructor
    · rintro ⟨k, hk, hpath⟩
      obtain ⟨r, hr, hk⟩ := exists_of_mem_trail hk
      exact ⟨r, (hmem r).1 hr, k, hk, hpath⟩
    · rintro ⟨r, hr, k, hk, rfl⟩
      rcases mem_trail_or_missable ((hmem r).2 hr) hk with hk | hm
      · exact ⟨k, hk, rfl⟩
      · rw [missable_congr hmem] at hm
        obtain ⟨x, hx, hpath⟩ := hmissable k hm hurl
        exact ⟨x, self_mem_trail ((hmem x).2 hx), hpath⟩
  refine (forall_perm_refreshed h (P := fun st st' => st.switched = st'.switched)).2
    (fun rs' hperm => ?_) rs' hperm
  refine behind_switched_eq_iff.2 fun path hurl => ?_
  rw [hvisited rs' (fun r => hperm.mem_iff) path hurl,
    hvisited rs.reverse (fun r => List.mem_reverse) path hurl]

/-- Where the paths of what is listed tell which bucket lists it, the index is left the same only
then. -/
theorem missable_of_refreshed_switched (h : st.cache.Tied)
    (htold : ∀ q r k m, k ∈ st.cache.bucket q → m ∈ st.cache.bucket r → k.path = m.path → q = r)
    (hsame : ∀ rs', rs'.Perm rs →
      (refreshed rs' .one st).switched = (refreshed rs .one st).switched)
    (hm : Missable st.cache rs m) (hurl : Indexed st m.path) : ∃ x ∈ rs, x.path = m.path := by
  rw [forall_perm_refreshed h (P := fun st st' => st.switched = st'.switched)] at hsame
  obtain ⟨visits, hvisits, hvisited⟩ := hm.exists_visited h
  obtain ⟨misses, hmisses, hmissed⟩ := hm.exists_missed h
  have heq := (hsame visits hvisits).trans (hsame misses hmisses).symm
  have hpath := (behind_switched_eq_iff.1 heq m.path hurl).1 (List.mem_map_of_mem hvisited)
  obtain ⟨k, hk, hpath⟩ := List.mem_map.1 hpath
  rcases hmissed k hk with hk | ⟨q, _, hne, hlists⟩
  · exact ⟨k, hk, hpath⟩
  · obtain ⟨r, _, _, hm⟩ := hm
    exact absurd (htold q r k m hlists hm hpath ▸ h.parent hm) hne

/-- **When the order of a refresh shows.** However a session has come about, a refresh of single
resources or of whole subtrees leaves the same in every order. With the children it need not. What
may be missed then is what the bucket of a refreshed resource lists, if another one is right below
that resource, or right above with a bucket that lists it. The cache is the same in every order if
and only if every container that may be missed has no bucket, or is itself refreshed, or is the
parent of what is. The index is the same if what may be missed has no URL, or a refreshed resource
has the same path; and only then, where the paths of what is listed tell which bucket lists it. -/
theorem refresh_order_iff (config : Config) (now : Int) (ops : List (Env × Operation))
    (hrs : ∀ r ∈ rs, r.Named) :
    let s := ({ storage := make config now } : Session).run ops
    let before := s.storage.state
    let after := fun rs => ((refresh rs .one).run s).2.storage.state
    (∀ depth ≠ .one, ∀ rs', rs'.Perm rs →
      (refresh rs' depth).run s = (refresh rs depth).run s) ∧
    ((∀ rs', rs'.Perm rs → (after rs').cache = (after rs).cache) ↔
      ∀ m, Missable before.cache rs m → m.isContainer → before.cache.hasBucket m →
        m ∈ rs ∨ ∃ x ∈ rs, x.parent? = some m) ∧
    ((∀ m, Missable before.cache rs m → Indexed before m.path → ∃ x ∈ rs, x.path = m.path) →
      ∀ rs', rs'.Perm rs → (after rs').switched = (after rs).switched) ∧
    ((∀ q r k m, k ∈ before.cache.bucket q → m ∈ before.cache.bucket r → k.path = m.path →
        q = r) →
      (∀ rs', rs'.Perm rs → (after rs').switched = (after rs).switched) →
      ∀ m, Missable before.cache rs m → Indexed before m.path → ∃ x ∈ rs, x.path = m.path) := by
  intro s before after
  have h : before.cache.Tied := tied_run config now ops
  have hafter : ∀ rs, after rs = refreshed rs .one before := fun rs => state_refresh rs .one s
  refine ⟨fun depth hdepth rs' hperm => ?_, ?_, fun hmissable rs' hperm => ?_,
    fun htold hsame m hm hurl => ?_⟩
  · have hrun : ∀ rs, (refresh rs depth).run s = (.ok (), { s with storage := { s.storage with
        suggestedDepth := if depth = .infinite then .infinite else .one
        state := refreshed rs depth before } }) := fun rs => rfl
    rw [hrun, hrun, refreshed_perm h hdepth hrs hperm]
  · simp only [hafter]
    exact refreshed_cache_iff h rs
  · rw [hafter, hafter]
    exact refreshed_switched_of_missable h hmissable hperm
  · simp only [hafter] at hsame
    exact missable_of_refreshed_switched h htold hsame hm hurl

/-- A folder and one inside of it are refreshed, with a second folder beside that one. -/
theorem refresh_order_iff_siblings :
    let ops := [(Env.silent, Operation.status (.file "/p/a/x/f"))]
    let s := ({ storage := make {} 0 } : Session).run ops
    let rs : List Resource := [.folder "/p/a", .folder "/p/a/b"]
    (∀ r ∈ rs, r.Named) ∧
      ¬∀ rs' : List Resource, rs'.Perm rs → ((refresh rs' .one).run s).2.storage.state.cache =
        ((refresh rs .one).run s).2.storage.state.cache := by
  intro ops s rs
  have hrs : ∀ r ∈ rs, r.Named := by
    simp only [rs, List.forall_mem_cons]
    exact ⟨.path "/p/a" .folder, .path "/p/a/b" .folder, by simp⟩
  refine ⟨hrs, fun hsame => ?_⟩
  have hlists : Resource.folder "/p/a/x" ∈ s.storage.state.cache.bucket (.folder "/p/a") := by
    have hbucket : s.storage.state.cache.bucket (.folder "/p/a") = [.folder "/p/a/x"] := by
      unfold s ops
      cbv
    rw [hbucket]
    exact List.mem_singleton_self _
  have hbucket : s.storage.state.cache.hasBucket (.folder "/p/a/x") := by
    unfold s ops
    cbv
  have hadjoins : Adjoins s.storage.state.cache rs (.folder "/p/a") :=
    .inl ⟨.folder "/p/a/b", by simp [rs], by cbv⟩
  have hs : ({ storage := make {} 0 } : Session).run ops = s := rfl
  have hcache := (refresh_order_iff {} 0 ops hrs).2.1
  simp only [hs] at hcache
  rcases hcache.1 hsame _ ⟨_, List.mem_cons_self, hadjoins, hlists⟩ (by cbv) hbucket with h | h
  · exact absurd h (by decide +kernel)
  · exact absurd h (by decide +kernel)

end Storage
end StatusCache
