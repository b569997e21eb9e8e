/-
# Finite tables

A table gives at most one value to a key and keeps its keys in the order in which they were first
written. Two tables that answer every look-up alike may differ in that order only; what each
operation does to the look-ups is said by `get?_insert`, `get?_erase` and `get?_filter`.
-/

namespace StatusCache

/-- Keys with their values, in the order in which the keys were first written. -/
structure Table (κ ν : Type) where
  entries : List (κ × ν) := []
deriving Repr

namespace Table

variable {κ ν : Type} [DecidableEq κ]

/-- The value of a key. -/
def get? (t : Table κ ν) (k : κ) : Option ν := (t.entries.find? (·.1 = k)).map (·.2)

/-- Whether the key has a value. -/
def contains (t : Table κ ν) (k : κ) : Bool := (t.get? k).isSome

/-- The entries with the value of `k` replaced, or written behind the others. -/
def insertEntry (k : κ) (v : ν) : List (κ × ν) → List (κ × ν)
  | [] => [(k, v)]
  | e :: es => if e.1 = k then (k, v) :: es else e :: insertEntry k v es

/-- Gives a value to a key, in place of the one it had. -/
def insert (t : Table κ ν) (k : κ) (v : ν) : Table κ ν := ⟨insertEntry k v t.entries⟩

/-- Takes the value from a key. -/
def erase (t : Table κ ν) (k : κ) : Table κ ν := ⟨t.entries.filter (·.1 ≠ k)⟩

/-- Keeps the keys that pass a test. -/
def filter (t : Table κ ν) (keep : κ → Bool) : Table κ ν := ⟨t.entries.filter (keep ·.1)⟩

/-- The keys, in the order in which they were first written. -/
def keys (t : Table κ ν) : List κ := t.entries.map (·.1)

/-- The number of keys. -/
def size (t : Table κ ν) : Nat := t.entries.length

/-- An empty table holds nothing. -/
@[simp]
theorem get?_empty (k : κ) : (⟨[]⟩ : Table κ ν).get? k = none := rfl

/-- An inserted entry is found under its key, and every other one as before. -/
theorem find?_insertEntry (k k' : κ) (v : ν) (es : List (κ × ν)) :
    (insertEntry k v es).find? (·.1 = k') =
      if k = k' then some (k, v) else es.find? (·.1 = k') := by
  induction es with
  | nil => by_cases h : k = k' <;> simp [insertEntry, h]
  | cons e es ih =>
    simp only [insertEntry]
    by_cases he : e.1 = k
    · by_cases h : k = k' <;> simp [he, h]
    · by_cases h : k = k'
      · subst h; simp [he, ih]
      · simp [he, List.find?_cons, ih, h]

/-- Writing changes the look-up of its own key and no other. -/
theorem get?_insert (t : Table κ ν) (k k' : κ) (v : ν) :
    (t.insert k v).get? k' = if k = k' then some v else t.get? k' := by
  simp only [get?, insert, find?_insertEntry]
  split <;> rfl

/-- A filter keeps the look-ups of the keys that pass and empties the others. -/
theorem get?_filter (t : Table κ ν) (keep : κ → Bool) (k : κ) :
    (t.filter keep).get? k = if keep k then t.get? k else none := by
  obtain ⟨es⟩ := t
  simp only [get?, filter]
  induction es with
  | nil => simp
  | cons e es ih =>
    by_cases hk : e.1 = k
    · subst hk
      by_cases h : keep e.1 = true
      · simp [h]
      · simp only [List.filter_cons, h, Bool.false_eq_true, if_false] at ih ⊢
        exact ih
    · by_cases h : keep e.1 = true
      · simp only [List.filter_cons, h, if_true, List.find?_cons, hk, decide_false]
        exact ih
      · simp only [List.filter_cons, h, Bool.false_eq_true, if_false, List.find?_cons, hk,
          decide_false]
        exact ih

/-- Erasing empties the look-up of its own key and no other. -/
theorem get?_erase (t : Table κ ν) (k k' : κ) :
    (t.erase k).get? k' = if k' = k then none else t.get? k' := by
  have h : t.erase k = t.filter fun x => decide (x ≠ k) := rfl
  rw [h, get?_filter]
  by_cases hk : k' = k <;> simp [hk]

end Table

end StatusCache
