/-
# Texts of the file system

What the file system takes for a name or a path is a sequence of bytes, which need not be UTF-8. A
text stands for its bytes; the other way, bytes are read leniently, so that two names may read alike
if one of them is not UTF-8.
-/

import StatusCache.Text.Segments
import StatusCache.Text.Utf8

namespace StatusCache

/-- A name or a path of the file system. -/
structure Raw where
  bytes : List UInt8
deriving DecidableEq, Repr, Inhabited

namespace Raw

/-- The bytes of a text. -/
def ofText (s : String) : Raw := ⟨Text.Utf8.encode s⟩

instance : Coe String Raw := ⟨ofText⟩

/-- What the bytes read as, with U+FFFD for what is no UTF-8. -/
def text (r : Raw) : String := Text.Utf8.decodeLossy r.bytes

instance : Append Raw := ⟨fun r s => ⟨r.bytes ++ s.bytes⟩⟩

/-- Raw texts stand in the order of their bytes. -/
instance : Ord Raw := ⟨compareOn bytes⟩

/-- The byte that separates the names in a path. -/
def slash : UInt8 := 0x2F

/-- The runs between slashes. -/
def split (r : Raw) : List Raw := (Text.splitRuns slash r.bytes).map Raw.mk

/-- The runs joined by slashes. -/
def join (runs : List Raw) : Raw := ⟨Text.joinRuns slash (runs.map bytes)⟩

/-- Whether a path starts at the root of the disk. -/
def isAbsolute (r : Raw) : Bool := r.bytes.head? = some slash

/-- Whether nothing or a slash stands at the end. -/
def isOpen (r : Raw) : Bool := r.bytes.isEmpty || r.bytes.getLast? = some slash

/-- The bytes of raw texts one after the other. -/
@[simp]
theorem bytes_append (r s : Raw) : (r ++ s).bytes = r.bytes ++ s.bytes := rfl

/-- Joining undoes splitting. -/
theorem join_split (r : Raw) : join r.split = r := by
  simp [join, split, Function.comp_def, Text.joinRuns_splitRuns]

/-- Splitting undoes joining when there is a run and no run holds a slash. -/
theorem split_join {runs : List Raw} (hne : runs ≠ []) (h : ∀ run ∈ runs, slash ∉ run.bytes) :
    split (join runs) = runs := by
  have hruns : ∀ run ∈ runs.map bytes, slash ∉ run := by
    intro run hrun
    obtain ⟨s, hs, rfl⟩ := List.mem_map.1 hrun
    exact h s hs
  rw [split, join, Text.splitRuns_joinRuns (by simpa using hne) hruns]
  simp [Function.comp_def]

/-- No run holds a slash. -/
theorem not_mem_of_mem_split {r run : Raw} (h : run ∈ r.split) : slash ∉ run.bytes := by
  obtain ⟨bs, hbs, rfl⟩ := List.mem_map.1 h
  exact Text.not_mem_of_mem_splitRuns hbs

/-- There is a run in every raw text. -/
theorem split_ne_nil (r : Raw) : r.split ≠ [] := by simp [split, Text.splitRuns_ne_nil]

end Raw
end StatusCache
