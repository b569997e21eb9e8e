/-
# Joined segments

Segments of paths and URLs are not empty and hold no separator (`Text.Segment`). Their join neither
begins nor ends with a separator, so that trimming leaves it alone, and the join of two lists is the
join of their joins.
-/

import StatusCache.Text.Segments

namespace StatusCache
namespace Text

section

variable {α : Type} {sep : α} {runs more : List (List α)}

/-- Runs are joined by a separator in the middle. -/
theorem joinRuns_append (hruns : runs ≠ []) (hmore : more ≠ []) :
    joinRuns sep (runs ++ more) = joinRuns sep runs ++ sep :: joinRuns sep more := by
  induction runs with
  | nil => exact absurd rfl hruns
  | cons run runs ih =>
    cases runs with
    | nil =>
      cases more with
      | nil => exact absurd rfl hmore
      | cons next more => rfl
    | cons next runs =>
      rw [List.cons_append, List.cons_append, joinRuns, ← List.cons_append, ih (by simp),
        joinRuns, List.append_assoc, List.cons_append]

/-- The join begins with the first element of the first run. -/
theorem joinRuns_eq_cons (hne : runs ≠ []) (h : ∀ run ∈ runs, run ≠ [] ∧ sep ∉ run) :
    ∃ c cs, joinRuns sep runs = c :: cs ∧ c ≠ sep := by
  cases runs with
  | nil => exact absurd rfl hne
  | cons run runs =>
    obtain ⟨hrun, hsep⟩ := h run List.mem_cons_self
    cases run with
    | nil => exact absurd rfl hrun
    | cons c cs =>
      have hc : c ≠ sep := fun heq => hsep (heq ▸ List.mem_cons_self)
      cases runs with
      | nil => exact ⟨c, cs, rfl, hc⟩
      | cons next runs => exact ⟨c, cs ++ sep :: joinRuns sep (next :: runs), rfl, hc⟩

/-- The join ends with the last character of the last run. -/
theorem joinRuns_eq_concat (hne : runs ≠ []) (h : ∀ run ∈ runs, run ≠ [] ∧ sep ∉ run) :
    ∃ cs c, joinRuns sep runs = cs ++ [c] ∧ c ≠ sep := by
  induction runs with
  | nil => exact absurd rfl hne
  | cons run runs ih =>
    obtain ⟨hrun, hsep⟩ := h run List.mem_cons_self
    cases runs with
    | nil =>
      refine ⟨run.dropLast, run.getLast hrun, (List.dropLast_concat_getLast hrun).symm, ?_⟩
      exact fun heq => hsep (heq ▸ List.getLast_mem hrun)
    | cons next runs =>
      obtain ⟨cs, c, hjoin, hc⟩ := ih (by simp) fun r hr => h r (List.mem_cons_of_mem _ hr)
      exact ⟨run ++ sep :: cs, c, by rw [joinRuns, hjoin, List.append_assoc, List.cons_append], hc⟩

variable [DecidableEq α]

/-- Something other than a separator at the end stays. -/
theorem dropEnd_concat {c : α} {cs : List α} (hc : c ≠ sep) :
    dropEnd sep (cs ++ [c]) = cs ++ [c] := by
  simp [dropEnd, hc]

/-- A separator at the end is dropped. -/
@[simp]
theorem dropEnd_concat_self (cs : List α) : dropEnd sep (cs ++ [sep]) = dropEnd sep cs := by
  simp [dropEnd]

/-- What is dropped from the end are separators. -/
theorem exists_dropEnd_append (sep : α) (cs : List α) :
    ∃ n, cs = dropEnd sep cs ++ List.replicate n sep := by
  have hall : ∀ c ∈ cs.reverse.takeWhile (· = sep), c = sep := fun c hc => by
    simpa using List.all_eq_true.1 List.all_takeWhile c hc
  refine ⟨(cs.reverse.takeWhile (· = sep)).length, ?_⟩
  rw [dropEnd, ← List.reverse_replicate, ← List.eq_replicate_of_mem hall, ← List.reverse_append,
    List.takeWhile_append_dropWhile, List.reverse_reverse]

/-- The runs of two texts with a separator between are those of the one and of the other. -/
theorem splitRuns_append_append (xs ys : List α) :
    splitRuns sep (xs ++ sep :: ys) = splitRuns sep xs ++ splitRuns sep ys := by
  induction xs with
  | nil => simp [splitRuns]
  | cons c cs ih =>
    simp only [List.cons_append, splitRuns, ih]
    split
    · rfl
    · cases hs : splitRuns sep cs with
      | nil => exact absurd hs (splitRuns_ne_nil sep cs)
      | cons run runs => rfl

/-- The runs of one text begin those of another if this goes on behind it with a separator. -/
theorem splitRuns_prefix_iff {xs ys : List α} :
    splitRuns sep xs <+: splitRuns sep ys ↔ ys = xs ∨ xs ++ [sep] <+: ys := by
  constructor
  · rintro ⟨more, hmore⟩
    have hys := joinRuns_splitRuns sep ys
    rw [← hmore] at hys
    by_cases hnil : more = []
    · left
      rw [← hys, hnil, List.append_nil, joinRuns_splitRuns]
    · right
      rw [joinRuns_append (splitRuns_ne_nil sep xs) hnil, joinRuns_splitRuns] at hys
      exact ⟨joinRuns sep more, by rw [← hys]; simp⟩
  · rintro (rfl | ⟨rest, rfl⟩)
    · exact List.prefix_rfl
    · rw [List.append_assoc, List.singleton_append, splitRuns_append_append]
      exact List.prefix_append _ _

/-- All separators at the end are dropped. -/
theorem dropEnd_append_replicate (cs : List α) (n : Nat) :
    dropEnd sep (cs ++ List.replicate n sep) = dropEnd sep cs := by
  induction n with
  | zero => simp
  | succ n ih => rw [List.replicate_succ', ← List.append_assoc, dropEnd_concat_self, ih]

/-- The runs of a text hold no characters but its own. -/
theorem subset_of_mem_splitRuns {cs run : List α} (h : run ∈ splitRuns sep cs) :
    run ⊆ cs := by
  induction cs generalizing run with
  | nil => simp_all [splitRuns]
  | cons c cs ih =>
    simp only [splitRuns] at h
    split at h
    · rcases List.mem_cons.1 h with rfl | h
      · exact List.nil_subset _
      · exact List.subset_cons_of_subset c (ih h)
    · cases hs : splitRuns sep cs with
      | nil => exact absurd hs (splitRuns_ne_nil sep cs)
      | cons first runs =>
        rw [hs] at h ih
        rcases List.mem_cons.1 h with rfl | h
        · exact List.cons_subset_cons c (ih List.mem_cons_self)
        · exact List.subset_cons_of_subset c (ih (List.mem_cons_of_mem _ h))

end

variable {sep : Char}

/-- The runs of a text begin those of another if the text does, up to a separator. -/
theorem split_prefix_iff {s t : String} :
    split sep s <+: split sep t ↔ t.toList = s.toList ∨ s.toList ++ [sep] <+: t.toList := by
  rw [← splitRuns_prefix_iff, split, split]
  refine ⟨fun h => ?_, fun h => h.map _⟩
  simpa [Function.comp_def] using h.map String.toList

/-- A text between separators. -/
def Segment (sep : Char) (s : String) : Prop := s ≠ "" ∧ sep ∉ s.toList

variable {xs ys : List String}

/-- The characters of a segment are some, and none is a separator. -/
theorem Segment.toList {s : String} (h : Segment sep s) : s.toList ≠ [] ∧ sep ∉ s.toList :=
  ⟨fun hnil => h.1 (String.toList_eq_nil_iff.1 hnil), h.2⟩

/-- The characters of segments are runs. -/
theorem segments_toList (h : ∀ s ∈ xs, Segment sep s) :
    ∀ run ∈ xs.map String.toList, run ≠ [] ∧ sep ∉ run := by
  intro run hrun
  obtain ⟨s, hs, rfl⟩ := List.mem_map.1 hrun
  exact (h s hs).toList

/-- Segments are joined by a separator in the middle. -/
theorem toList_join_append (hxs : xs ≠ []) (hys : ys ≠ []) :
    (join sep (xs ++ ys)).toList = (join sep xs).toList ++ sep :: (join sep ys).toList := by
  simp only [join, String.toList_ofList, List.map_append]
  exact joinRuns_append (by simpa using hxs) (by simpa using hys)

/-- A join grows with every nonempty text that is joined. -/
theorem eq_nil_of_join_append (h : ∀ s ∈ ys, s ≠ "") (hjoin : join sep (xs ++ ys) = join sep xs) :
    ys = [] := by
  refine Decidable.byContradiction fun hys => ?_
  have hlength := congrArg (fun s : String => s.toList.length) hjoin
  by_cases hxs : xs = []
  · subst hxs
    obtain ⟨y, ys, rfl⟩ := List.exists_cons_of_ne_nil hys
    cases ys with
    | nil => simp [join, joinRuns, h y] at hlength
    | cons z zs => simp [join, joinRuns] at hlength
  · simp only [toList_join_append hxs hys, List.length_append, List.length_cons] at hlength
    omega

/-- Joining adds no character but the separator. -/
theorem not_mem_join {c : Char} (hc : c ≠ sep) (h : ∀ s ∈ xs, c ∉ s.toList) :
    c ∉ (join sep xs).toList := by
  rw [join, String.toList_ofList]
  induction xs with
  | nil => simp [joinRuns]
  | cons x xs ih =>
    have hx := h x List.mem_cons_self
    cases xs with
    | nil => simpa [joinRuns] using hx
    | cons y ys =>
      have hrest := ih fun s hs => h s (List.mem_cons_of_mem x hs)
      rw [List.map_cons, List.map_cons] at *
      simp [joinRuns, hx, hc, hrest]

/-- What does not hold a character is not changed by replacing it. -/
theorem replace_of_not_mem {old new : Char} {s : String} (h : old ∉ s.toList) :
    replace old new s = s := by
  have hkept : s.toList.map (fun c => if c = old then new else c) = s.toList.map id :=
    List.map_congr_left fun c hc => if_neg fun hold : c = old => h (hold ▸ hc)
  rw [replace, hkept, List.map_id, String.ofList_toList]

/-- A character that was replaced is gone. -/
theorem not_mem_replace {old new : Char} (h : new ≠ old) (s : String) :
    old ∉ (replace old new s).toList := by
  rw [replace, String.toList_ofList, List.mem_map]
  rintro ⟨c, -, hc⟩
  split at hc
  · exact h hc
  next hne => exact hne hc

/-- Splitting adds no character. -/
theorem not_mem_of_mem_split_of_not_mem {c : Char} {s run : String} (hc : c ∉ s.toList)
    (h : run ∈ split sep s) : c ∉ run.toList := by
  obtain ⟨cs, hcs, rfl⟩ := List.mem_map.1 h
  rw [String.toList_ofList]
  exact fun hmem => hc (subset_of_mem_splitRuns hcs hmem)

/-- A single run is joined to itself. -/
@[simp]
theorem join_singleton (sep : Char) (s : String) : join sep [s] = s := by
  simp [join, joinRuns]

/-! ### Trimmed texts -/

/-- A text that neither begins nor ends with a separator. -/
structure Trimmed (sep : Char) (cs : List Char) : Prop where
  head : cs.head? ≠ some sep
  last : cs.getLast? ≠ some sep

/-- Nothing ends with a separator when those are dropped. -/
theorem getLast?_dropEnd (sep : Char) (cs : List Char) : (dropEnd sep cs).getLast? ≠ some sep := by
  rw [dropEnd, List.getLast?_reverse]
  intro hlast
  have hhead := List.head?_dropWhile_not (fun c => decide (c = sep)) cs.reverse
  rw [hlast] at hhead
  simp at hhead

/-- What was trimmed is. -/
theorem trimmed_trim (sep : Char) (s : String) : Trimmed sep (trim sep s).toList := by
  rw [trim, String.toList_ofList]
  refine ⟨fun hhead => ?_, getLast?_dropEnd sep _⟩
  have hfront := List.head?_dropWhile_not (fun c => decide (c = sep)) s.toList
  obtain ⟨n, hback⟩ := exists_dropEnd_append sep (s.toList.dropWhile (· = sep))
  rw [hback, List.head?_append, hhead] at hfront
  simp at hfront

namespace Trimmed

variable {cs : List Char}

/-- Nothing is dropped from a text that ends with a trimmed one. -/
theorem dropEnd_append (h : Trimmed sep cs) (hne : cs ≠ []) (front : List Char) :
    dropEnd sep (front ++ cs) = front ++ cs := by
  rcases List.eq_nil_or_concat cs with rfl | ⟨init, c, rfl⟩
  · exact absurd rfl hne
  · have hc : c ≠ sep := fun heq => h.last (by simp [heq])
    rw [List.concat_eq_append, ← List.append_assoc, dropEnd_concat hc]

/-- Separators around a trimmed text are trimmed. -/
theorem trim_replicate (h : Trimmed sep cs) (m n : Nat) :
    trim sep (String.ofList (List.replicate m sep ++ cs ++ List.replicate n sep)) =
      String.ofList cs := by
  have hfront : (List.replicate m sep ++ (cs ++ List.replicate n sep)).dropWhile (· = sep) =
      (cs ++ List.replicate n sep).dropWhile (· = sep) :=
    List.dropWhile_append_of_pos fun c hc => by simp [List.eq_of_mem_replicate hc]
  rw [trim, String.toList_ofList, List.append_assoc, hfront]
  cases cs with
  | nil => simp [dropEnd]
  | cons c cs =>
    have hc : c ≠ sep := fun heq => h.head (by simp [heq])
    have hwhole := h.dropEnd_append (by simp) []
    rw [List.nil_append] at hwhole
    rw [List.cons_append, List.dropWhile_cons_of_neg (by simpa using hc), ← List.cons_append,
      dropEnd_append_replicate, hwhole]

end Trimmed

/-- Joined segments need no trimming. -/
theorem trimmed_join (h : ∀ s ∈ xs, Segment sep s) : Trimmed sep (join sep xs).toList := by
  rw [join, String.toList_ofList]
  by_cases hne : xs.map String.toList = []
  · rw [hne]
    exact ⟨by simp [joinRuns], by simp [joinRuns]⟩
  · obtain ⟨c, cs, hfirst, hc⟩ := joinRuns_eq_cons hne (segments_toList h)
    obtain ⟨ds, d, hlast, hd⟩ := joinRuns_eq_concat hne (segments_toList h)
    exact ⟨by simp [hfirst, hc], by simp [hlast, hd]⟩

/-- Nothing is trimmed from joined segments. -/
theorem trim_join (h : ∀ s ∈ xs, Segment sep s) : trim sep (join sep xs) = join sep xs := by
  simpa using (trimmed_join h).trim_replicate 0 0

/-- Only no segments are joined to nothing. -/
theorem join_eq_empty (h : ∀ s ∈ xs, Segment sep s) : join sep xs = "" ↔ xs = [] := by
  constructor
  · intro hempty
    refine Decidable.byContradiction fun hne => ?_
    obtain ⟨c, cs, hfirst, -⟩ := joinRuns_eq_cons (by simpa using hne) (segments_toList h)
    rw [join, hfirst] at hempty
    exact absurd (congrArg String.toList hempty) (by simp)
  · rintro rfl
    rfl

/-- Nothing is trimmed from a text that ends with joined segments. -/
theorem dropEnd_append_join (h : ∀ s ∈ xs, Segment sep s) (hne : xs ≠ []) (cs : List Char) :
    dropEnd sep (cs ++ (join sep xs).toList) = cs ++ (join sep xs).toList :=
  (trimmed_join h).dropEnd_append
    (fun hnil => hne ((join_eq_empty h).1 (String.toList_eq_nil_iff.1 hnil))) cs

/-- A text with a separator is what comes before the last one, the separator, and what comes
after it. -/
theorem exists_toList_eq_beforeLast {s : String} (h : (split sep s).dropLast ≠ []) :
    ∃ last, sep ∉ last ∧ s.toList = (beforeLast sep s).toList ++ sep :: last := by
  have hne : split sep s ≠ [] := fun hnil => h (by rw [hnil]; rfl)
  have hbefore : beforeLast sep s = join sep (split sep s).dropLast := by
    unfold beforeLast
    split
    next hnil => exact absurd hnil h
    · rfl
  refine ⟨((split sep s).getLast hne).toList, not_mem_of_mem_split (List.getLast_mem hne), ?_⟩
  calc s.toList = (join sep ((split sep s).dropLast ++ [(split sep s).getLast hne])).toList := by
        rw [List.dropLast_concat_getLast hne, join_split]
    _ = (join sep (split sep s).dropLast).toList ++
          sep :: (join sep [(split sep s).getLast hne]).toList :=
        toList_join_append h (List.cons_ne_nil _ _)
    _ = (beforeLast sep s).toList ++ sep :: ((split sep s).getLast hne).toList := by
        rw [hbefore]
        simp [join, joinRuns]

/-- Joined segments tell which ones they are. -/
theorem join_injective (hxs : ∀ s ∈ xs, Segment sep s) (hys : ∀ s ∈ ys, Segment sep s)
    (h : join sep xs = join sep ys) : xs = ys := by
  by_cases hx : xs = []
  · subst hx
    exact ((join_eq_empty hys).1 (h.symm.trans ((join_eq_empty hxs).2 rfl))).symm
  · have hy : ys ≠ [] := fun hnil => hx ((join_eq_empty hxs).1 (h.trans ((join_eq_empty hys).2 hnil)))
    rw [← split_join hx fun s hs => (hxs s hs).2, h, split_join hy fun s hs => (hys s hs).2]

end Text
end StatusCache
