/-
# The nearest cached container

What is not known about a resource is often taken from the nearest container above it that has a
record. The search follows parents. On places it finds, among the cached containers whose path
begins the path of the resource, the one with the most segments: `nearestAbove?_eq_some`.
-/

import StatusCache.Proofs.Cache.Coherent

namespace StatusCache

namespace Cache

variable {c : Cache} {r p : Resource} {record : Record}

/-- The nearest record above is that of the parent, or the nearest above that. -/
theorem nearestAbove?_of_parent? (hp : r.parent? = some p) (c : Cache) :
    c.nearestAbove? r = (c.get? p).or (c.nearestAbove? p) := by
  rw [nearestAbove?, Resource.ancestors_of_parent? hp, List.findSome?_cons]
  cases c.get? p <;> rfl

/-- There is no record above what has no parent. -/
theorem nearestAbove?_of_parent?_none (hp : r.parent? = none) (c : Cache) :
    c.nearestAbove? r = none := by
  rw [nearestAbove?, Resource.ancestors_of_parent?_none hp, List.findSome?_nil]

/-- The nearest record above a resource depends on what is cached for the containers above. -/
theorem nearestAbove?_congr {c' : Cache} (h : ∀ a ∈ r.ancestors, c.get? a = c'.get? a) :
    c.nearestAbove? r = c'.nearestAbove? r := by
  unfold nearestAbove?
  generalize r.ancestors = above at h
  induction above with
  | nil => rfl
  | cons a above ih =>
    rw [List.findSome?_cons, List.findSome?_cons, h a List.mem_cons_self,
      ih fun b hb => h b (List.mem_cons_of_mem a hb)]

/-- A record that is written becomes the nearest one above a resource, or the nearest one stays. -/
theorem nearestAbove?_put_cases (c : Cache) (record : Record) (r : Resource) :
    (c.put record).nearestAbove? r = c.nearestAbove? r ∨
      (c.put record).nearestAbove? r = some record ∧ record.resource ∈ r.ancestors ∧
        (c.get? record.resource = none →
          c.nearestAbove? r = c.nearestAbove? record.resource) := by
  induction r using Resource.parent_induction with
  | step r ih =>
    cases hp : r.parent? with
    | none =>
      left
      rw [nearestAbove?_of_parent?_none hp, nearestAbove?_of_parent?_none hp]
    | some p =>
      rw [nearestAbove?_of_parent? hp, nearestAbove?_of_parent? hp,
        Resource.mem_ancestors_of_parent? hp, get?_put]
      split
      next hput =>
        obtain ⟨rfl, -⟩ := hput
        exact .inr ⟨Option.some_or, .inl rfl, fun hnone => by rw [hnone, Option.none_or]⟩
      next =>
        cases c.get? p with
        | some found => exact .inl (by rw [Option.some_or, Option.some_or])
        | none =>
          rw [Option.none_or, Option.none_or]
          exact (ih p hp).imp_right fun h => ⟨h.1, .inr h.2.1, h.2.2⟩

/-- The nearest record above is that of a container above. -/
theorem Keyed.mem_ancestors (hc : c.Keyed) (h : c.nearestAbove? r = some record) :
    record.resource ∈ r.ancestors := by
  obtain ⟨a, ha, hget⟩ := List.exists_of_findSome?_eq_some h
  rwa [hc a record hget]

/-- The records are those of places. -/
def Placed (c : Cache) : Prop := ∀ r, (c.get? r).isSome → r.WellFormed

/-- A record is cached for a container that is strictly above a resource. -/
structure CachedAbove (c : Cache) (r : Resource) (record : Record) : Prop where
  cached : c.get? record.resource = some record
  isContainer : record.resource.isContainer
  above : record.resource.isAncestorOf r

/-- A record is the one of the cached container above a resource that has the most segments. -/
structure Nearest (c : Cache) (r : Resource) (record : Record) : Prop
    extends c.CachedAbove r record where
  most : ∀ other, c.CachedAbove r other →
    other.resource.segments.length ≤ record.resource.segments.length

/-- What is cached above a place is cached for its parent, or above the parent. -/
theorem cachedAbove_of_parent? (hc : c.Coherent) (hplaced : c.Placed) (hr : r.WellFormed)
    (hp : r.parent? = some p) :
    c.CachedAbove r record ↔ c.get? p = some record ∨ c.CachedAbove p record := by
  have hpwf := hr.parent hp
  have above : ∀ s : Resource, s.WellFormed → (c.CachedAbove s record ↔
      c.get? record.resource = some record ∧ record.resource ∈ s.ancestors) := by
    intro s hs
    constructor
    · rintro ⟨hget, hcontainer, habove⟩
      have hwf := hplaced record.resource (by rw [hget]; rfl)
      exact ⟨hget, (hs.mem_ancestors_iff hwf).2 ⟨hcontainer, habove⟩⟩
    · rintro ⟨hget, hmem⟩
      have hwf := hplaced record.resource (by rw [hget]; rfl)
      obtain ⟨hcontainer, habove⟩ := (hs.mem_ancestors_iff hwf).1 hmem
      exact ⟨hget, hcontainer, habove⟩
  rw [above r hr, above p hpwf, Resource.mem_ancestors_of_parent? hp]
  constructor
  · rintro ⟨hget, rfl | hmem⟩
    · exact Or.inl hget
    · exact Or.inr ⟨hget, hmem⟩
  · rintro (hget | ⟨hget, hmem⟩)
    · have heq := hc.resource_eq hget
      exact ⟨by rwa [heq], Or.inl heq⟩
    · exact ⟨hget, Or.inr hmem⟩

/-- What the search finds is the nearest record above. -/
theorem nearest_of_nearestAbove? (hc : c.Coherent) (hplaced : c.Placed) (hr : r.WellFormed)
    (h : c.nearestAbove? r = some record) : c.Nearest r record := by
  induction r using Resource.parent_induction with
  | step r ih =>
    cases hp : r.parent? with
    | none =>
      rw [nearestAbove?_of_parent?_none hp] at h
      cases h
    | some p =>
      have above : ∀ other, c.CachedAbove r other ↔
          c.get? p = some other ∨ c.CachedAbove p other :=
        fun _ => cachedAbove_of_parent? hc hplaced hr hp
      rw [nearestAbove?_of_parent? hp, Option.or_eq_some_iff] at h
      rcases h with hget | ⟨hnone, h⟩
      · refine ⟨(above record).2 (Or.inl hget), fun other hother => ?_⟩
        rw [hc.resource_eq hget]
        rcases (above other).1 hother with hget' | ⟨hcached, _, habove⟩
        · rw [hc.resource_eq hget']
        · have hwf := hplaced other.resource (by rw [hcached]; rfl)
          exact ((hwf.isAncestorOf_iff (hr.parent hp)).1 habove).1.length_le
      · obtain ⟨hcached, hmost⟩ := ih p hp (hr.parent hp) h
        refine ⟨(above record).2 (Or.inr hcached), fun other hother => ?_⟩
        rcases (above other).1 hother with hget' | hother
        · rw [hnone] at hget'
          cases hget'
        · exact hmost other hother

/-- If the search finds none, no record is above. -/
theorem not_cachedAbove_of_nearestAbove? (hc : c.Coherent) (hplaced : c.Placed)
    (hr : r.WellFormed) (h : c.nearestAbove? r = none) (record : Record) :
    ¬c.CachedAbove r record := by
  induction r using Resource.parent_induction with
  | step r ih =>
    cases hp : r.parent? with
    | none =>
      rintro ⟨hcached, hcontainer, habove⟩
      have hwf := hplaced record.resource (by rw [hcached]; rfl)
      have hmem := (hr.mem_ancestors_iff hwf).2 ⟨hcontainer, habove⟩
      rw [Resource.ancestors_of_parent?_none hp] at hmem
      cases hmem
    | some p =>
      rw [nearestAbove?_of_parent? hp, Option.or_eq_none_iff] at h
      rw [cachedAbove_of_parent? hc hplaced hr hp, not_or]
      exact ⟨by simp [h.1], ih p hp (hr.parent hp) h.2⟩

/-- A place has at most one nearest cached container above it. -/
theorem Nearest.unique {other : Record} (hplaced : c.Placed) (hr : r.WellFormed)
    (h : c.Nearest r record) (h' : c.Nearest r other) : record = other := by
  have hwf := hplaced record.resource (by rw [h.cached]; rfl)
  have hwf' := hplaced other.resource (by rw [h'.cached]; rfl)
  have hlength : record.resource.segments.length = other.resource.segments.length :=
    le_antisymm (h'.most record h.toCachedAbove) (h.most other h'.toCachedAbove)
  have hprefix := ((hwf.isAncestorOf_iff hr).1 h.above).1
  have hprefix' := ((hwf'.isAncestorOf_iff hr).1 h'.above).1
  have hsegments : record.resource.segments = other.resource.segments :=
    (List.prefix_of_prefix_length_le hprefix hprefix' hlength.le).eq_of_length hlength
  have hresource : record.resource = other.resource := by
    rw [hwf.eq_ofNames h.isContainer, hwf'.eq_ofNames h'.isContainer, hsegments]
  exact Option.some.inj (by rw [← h.cached, ← h'.cached, hresource])

/-- **The nearest record above a place** is that of the cached container above it with the most
segments. -/
theorem nearestAbove?_eq_some (hc : c.Coherent) (hplaced : c.Placed) (hr : r.WellFormed) :
    c.nearestAbove? r = some record ↔ c.Nearest r record := by
  refine ⟨nearest_of_nearestAbove? hc hplaced hr, fun h => ?_⟩
  cases hfound : c.nearestAbove? r with
  | none => exact absurd h.toCachedAbove (not_cachedAbove_of_nearestAbove? hc hplaced hr hfound _)
  | some found =>
    rw [(nearest_of_nearestAbove? hc hplaced hr hfound).unique hplaced hr h]

/-- The search finds none exactly if no record is above. -/
theorem nearestAbove?_eq_none (hc : c.Coherent) (hplaced : c.Placed) (hr : r.WellFormed) :
    c.nearestAbove? r = none ↔ ∀ record, ¬c.CachedAbove r record := by
  refine ⟨not_cachedAbove_of_nearestAbove? hc hplaced hr, fun h => ?_⟩
  cases hfound : c.nearestAbove? r with
  | none => rfl
  | some found =>
    exact absurd (nearest_of_nearestAbove? hc hplaced hr hfound).toCachedAbove (h found)

end Cache
end StatusCache
