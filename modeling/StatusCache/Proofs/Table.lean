/-
# The keys of a table

A table that is only written through its operations has every key once (`Table.Distinct`). Then its
keys are the ones with a value (`mem_keys`), and it has several entries where there is another key
(`Distinct.one_lt_size_iff`).
-/

import Mathlib.Data.List.Nodup
import Mathlib.Data.List.Perm.Subperm
import StatusCache.Table

namespace StatusCache

namespace Table

variable {κ ν : Type} [DecidableEq κ]

/-- Every key has one entry. -/
def Distinct (t : Table κ ν) : Prop := t.keys.Nodup

omit [DecidableEq κ] in
/-- An empty table has no key twice. -/
@[simp]
theorem distinct_empty : ({} : Table κ ν).Distinct := List.nodup_nil

/-- The keys are what something is held for. -/
theorem mem_keys {t : Table κ ν} {k : κ} : k ∈ t.keys ↔ (t.get? k).isSome := by
  simp [keys, get?, List.find?_isSome]

omit [DecidableEq κ] in
/-- There are as many keys as entries. -/
@[simp]
theorem length_keys (t : Table κ ν) : t.keys.length = t.size := List.length_map _

/-- An inserted key stays where it is, or comes last. -/
theorem keys_insertEntry (k : κ) (v : ν) (es : List (κ × ν)) :
    (insertEntry k v es).map (·.1) =
      if k ∈ es.map (·.1) then es.map (·.1) else es.map (·.1) ++ [k] := by
  induction es with
  | nil => rfl
  | cons e es ih =>
    by_cases he : e.1 = k
    · subst he
      simp [insertEntry]
    · rw [insertEntry, if_neg he, List.map_cons, ih, List.map_cons]
      by_cases hk : k ∈ es.map (·.1)
      · rw [if_pos hk, if_pos (List.mem_cons_of_mem _ hk)]
      · rw [if_neg hk, if_neg (by simpa [hk] using Ne.symm he), List.cons_append]

/-- A key that is written for the first time comes behind the others. -/
theorem keys_insert (t : Table κ ν) (k : κ) (v : ν) :
    (t.insert k v).keys = if k ∈ t.keys then t.keys else t.keys ++ [k] :=
  keys_insertEntry k v t.entries

omit [DecidableEq κ] in
/-- Filtering a table filters its keys. -/
theorem keys_filter (t : Table κ ν) (keep : κ → Bool) :
    (t.filter keep).keys = t.keys.filter keep := by
  simp [keys, filter, List.filter_map, Function.comp_def]

/-- Inserting makes no key come twice. -/
theorem Distinct.insert {t : Table κ ν} (h : t.Distinct) (k : κ) (v : ν) :
    (t.insert k v).Distinct := by
  unfold Distinct
  rw [keys_insert]
  split
  · exact h
  next hk => exact List.Nodup.append h (List.nodup_singleton k) (by simpa using hk)

omit [DecidableEq κ] in
/-- Filtering makes no key come twice. -/
theorem Distinct.filter {t : Table κ ν} (h : t.Distinct) (keep : κ → Bool) :
    (t.filter keep).Distinct := by
  unfold Distinct
  rw [keys_filter]
  exact List.Nodup.filter keep h

/-- Erasing makes no key come twice. -/
theorem Distinct.erase {t : Table κ ν} (h : t.Distinct) (k : κ) : (t.erase k).Distinct :=
  h.filter fun x => decide (x ≠ k)

/-- Two filters leave the same of a table if they agree on its keys. -/
theorem filter_eq_filter_iff {t : Table κ ν} {keep other : κ → Bool} :
    t.filter keep = t.filter other ↔ ∀ k, (t.get? k).isSome → keep k = other k := by
  constructor
  · intro h k hk
    obtain ⟨v, hv⟩ := Option.isSome_iff_exists.1 hk
    have hget := congrArg (·.get? k) h
    simp only [get?_filter, hv] at hget
    cases hkeep : keep k <;> cases hother : other k <;> simp_all
  · intro h
    refine congrArg Table.mk (List.filter_congr fun e he => h e.1 ?_)
    exact mem_keys.1 (List.mem_map_of_mem (f := Prod.fst) he)

/-- The value that is looked up for a key is the one of its entry. -/
theorem Distinct.get?_of_mem {t : Table κ ν} (h : t.Distinct) {e : κ × ν} (he : e ∈ t.entries) :
    t.get? e.1 = some e.2 := by
  obtain ⟨es⟩ := t
  induction es with
  | nil => cases he
  | cons first es ih =>
    obtain ⟨hfirst, hes⟩ := List.nodup_cons.1 h
    rcases List.mem_cons.1 he with rfl | he
    · simp [get?]
    · have hne : first.1 ≠ e.1 := fun heq =>
        hfirst (List.mem_map.2 ⟨e, he, heq.symm⟩)
      have := ih hes he
      simpa [get?, hne] using this

/-- The entries are the keys with the values that are looked up for them. -/
theorem Distinct.mem_entries_iff {t : Table κ ν} (h : t.Distinct) {k : κ} {v : ν} :
    (k, v) ∈ t.entries ↔ t.get? k = some v := by
  refine ⟨h.get?_of_mem, fun hget => ?_⟩
  obtain ⟨e, he, hv⟩ := Option.map_eq_some_iff.1 hget
  have hk : e.1 = k := by simpa using List.find?_some he
  obtain rfl : e = (k, v) := Prod.ext hk hv
  exact List.mem_of_find?_eq_some he

/-- A table with a key has several entries if and only if it has another key. -/
theorem Distinct.one_lt_size_iff {t : Table κ ν} (h : t.Distinct) {k : κ}
    (hk : (t.get? k).isSome) : 1 < t.size ↔ ∃ k', k' ≠ k ∧ (t.get? k').isSome := by
  simp only [← mem_keys] at hk ⊢
  rw [← length_keys]
  constructor
  · intro hlt
    by_contra hnone
    have honly : t.keys ⊆ [k] := fun k' hk' =>
      List.mem_singleton.2 (by_contra fun hne => hnone ⟨k', hne, hk'⟩)
    exact absurd (h.subperm honly).length_le (by simpa using hlt)
  · rintro ⟨k', hne, hk'⟩
    have hboth : [k', k].Nodup := by simp [hne]
    exact (hboth.subperm (by simp [hk, hk'])).length_le

omit [DecidableEq κ] in
/-- Filtering twice is filtering by both. -/
theorem filter_filter (t : Table κ ν) (keep also : κ → Bool) :
    (t.filter keep).filter also = t.filter fun k => keep k && also k := by
  simp only [filter, List.filter_filter, Bool.and_comm]

end Table
end StatusCache
