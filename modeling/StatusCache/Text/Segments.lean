/-
# Text between separators

Workspace paths, repository URLs and persisted records are all runs of text between one separator
character, and paths on disk are runs of bytes. Splitting keeps empty runs, so that joining gives the
text back: `join_split`.
-/

namespace StatusCache
namespace Text

variable {α : Type} [DecidableEq α]

/-- The runs of `cs` between occurrences of `sep`; there is always one more run than separators. -/
def splitRuns (sep : α) : List α → List (List α)
  | [] => [[]]
  | c :: cs =>
    if c = sep then [] :: splitRuns sep cs
    else
      match splitRuns sep cs with
      | [] => [[c]]
      | run :: runs => (c :: run) :: runs

omit [DecidableEq α] in
/-- The runs written one after the other with `sep` in between. -/
def joinRuns (sep : α) : List (List α) → List α
  | [] => []
  | [run] => run
  | run :: next :: runs => run ++ sep :: joinRuns sep (next :: runs)

/-- There is a run in every list. -/
theorem splitRuns_ne_nil (sep : α) (cs : List α) : splitRuns sep cs ≠ [] := by
  cases cs with
  | nil => simp [splitRuns]
  | cons c cs =>
    simp only [splitRuns]
    split
    · simp
    · split <;> simp

/-- Joining undoes splitting, whatever the text. -/
theorem joinRuns_splitRuns (sep : α) (cs : List α) :
    joinRuns sep (splitRuns sep cs) = cs := by
  induction cs with
  | nil => rfl
  | cons c cs ih =>
    have hne := splitRuns_ne_nil sep cs
    simp only [splitRuns]
    split
    next h =>
      cases hs : splitRuns sep cs with
      | nil => exact absurd hs hne
      | cons run runs => rw [joinRuns, ← hs, ih, h, List.nil_append]
    next =>
      cases hs : splitRuns sep cs with
      | nil => exact absurd hs hne
      | cons run runs =>
        rw [hs] at ih
        cases runs with
        | nil => simp only [joinRuns] at ih ⊢; rw [ih]
        | cons next runs => simp only [joinRuns] at ih ⊢; rw [List.cons_append, ih]

/-- No run holds the separator. -/
theorem not_mem_of_mem_splitRuns {sep : α} {cs run : List α}
    (h : run ∈ splitRuns sep cs) : sep ∉ run := by
  induction cs generalizing run with
  | nil => simp_all [splitRuns]
  | cons c cs ih =>
    simp only [splitRuns] at h
    split at h
    · rcases List.mem_cons.1 h with rfl | h
      · simp
      · exact ih h
    next hc =>
      cases hs : splitRuns sep cs with
      | nil => exact absurd hs (splitRuns_ne_nil sep cs)
      | cons first runs =>
        rw [hs] at h ih
        rcases List.mem_cons.1 h with rfl | h
        · simp only [List.mem_cons, not_or]
          exact ⟨fun e => hc e.symm, ih List.mem_cons_self⟩
        · exact ih (List.mem_cons_of_mem _ h)

/-- Without a separator there is one run. -/
theorem splitRuns_of_not_mem {sep : α} {run : List α} (h : sep ∉ run) :
    splitRuns sep run = [run] := by
  induction run with
  | nil => rfl
  | cons c run ih =>
    simp only [List.mem_cons, not_or] at h
    simp [splitRuns, ih h.2, Ne.symm h.1]

/-- The run before a separator comes first. -/
theorem splitRuns_append {sep : α} {run : List α} (h : sep ∉ run) (rest : List α) :
    splitRuns sep (run ++ sep :: rest) = run :: splitRuns sep rest := by
  induction run with
  | nil => simp [splitRuns]
  | cons c run ih =>
    simp only [List.mem_cons, not_or] at h
    simp [splitRuns, ih h.2, Ne.symm h.1]

/-- Splitting undoes joining when there is a run and no run holds the separator. -/
theorem splitRuns_joinRuns {sep : α} {runs : List (List α)} (hne : runs ≠ [])
    (h : ∀ run ∈ runs, sep ∉ run) : splitRuns sep (joinRuns sep runs) = runs := by
  induction runs with
  | nil => exact absurd rfl hne
  | cons run runs ih =>
    cases runs with
    | nil => exact splitRuns_of_not_mem (h run List.mem_cons_self)
    | cons next runs =>
      rw [joinRuns, splitRuns_append (h run List.mem_cons_self),
        ih (by simp) fun r hr => h r (List.mem_cons_of_mem _ hr)]

/-- The text without the characters `c` at its end. -/
def dropEnd (c : α) (cs : List α) : List α :=
  (cs.reverse.dropWhile (· = c)).reverse

/-- The runs of a text between separators. -/
def split (sep : Char) (s : String) : List String :=
  (splitRuns sep s.toList).map String.ofList

/-- The texts joined by a separator. -/
def join (sep : Char) (runs : List String) : String :=
  String.ofList (joinRuns sep (runs.map String.toList))

/-- Joining undoes splitting. -/
theorem join_split (sep : Char) (s : String) : join sep (split sep s) = s := by
  simp [join, split, Function.comp_def, joinRuns_splitRuns]

/-- Splitting undoes joining when there is a run and no run holds the separator. -/
theorem split_join {sep : Char} {runs : List String} (hne : runs ≠ [])
    (h : ∀ run ∈ runs, sep ∉ run.toList) : split sep (join sep runs) = runs := by
  have hruns : ∀ run ∈ runs.map String.toList, sep ∉ run := by
    intro run hrun
    obtain ⟨s, hs, rfl⟩ := List.mem_map.1 hrun
    exact h s hs
  rw [split, join, String.toList_ofList, splitRuns_joinRuns (by simpa using hne) hruns]
  simp [Function.comp_def]

/-- No run holds the separator. -/
theorem not_mem_of_mem_split {sep : Char} {s run : String} (h : run ∈ split sep s) :
    sep ∉ run.toList := by
  obtain ⟨cs, hcs, rfl⟩ := List.mem_map.1 h
  rw [String.toList_ofList]
  exact not_mem_of_mem_splitRuns hcs

/-- The text without the characters `c` at its end. -/
def trimEnd (c : Char) (s : String) : String :=
  String.ofList (dropEnd c s.toList)

/-- The text without the characters `c` at either end. -/
def trim (c : Char) (s : String) : String :=
  String.ofList (dropEnd c (s.toList.dropWhile (· = c)))

/-- Every `old` replaced by `new`. -/
def replace (old new : Char) (s : String) : String :=
  String.ofList (s.toList.map fun c => if c = old then new else c)

/-- The part before the last separator; the whole text when there is none. -/
def beforeLast (sep : Char) (s : String) : String :=
  match (split sep s).dropLast with
  | [] => s
  | runs => join sep runs

end Text
end StatusCache
