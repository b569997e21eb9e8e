/-
# Paths and their steps

What is left of a path below another is made of runs whose steps lead from there to it
(`exists_runs_of_strip?`), and it does not start or end in a run that counts for nothing. Where the
way down is by names that are texts, it reads as these names (`Descends.exists_below?`); names that
are not UTF-8 may read alike. Paths are in order by their components, so one that lies above another
does not come behind it (`eq_of_isPrefix_of_isLE`).
-/

import StatusCache.Backend.Basic
import StatusCache.Proofs.Place
import StatusCache.Proofs.Text.Raw

namespace StatusCache

namespace Path

variable {p q base : Path} {text : String} {below run : Raw} {runs : List Raw}

/-- The steps that the runs of a path below another stand for. -/
def steps (below : Raw) : List Component := below.split.filterMap Component.ofRun?

/-- The step that a name of a resource stands for. -/
def Component.ofName? (name : String) : Option Component := Component.ofRun? name

/-! ### Runs -/

/-- The runs that stand for no step are the empty one and the dot. -/
theorem ofRun?_eq_none : Component.ofRun? run = none ↔ run = "" ∨ run = "." := by
  unfold Component.ofRun?
  split_ifs <;> simp_all

/-- Leaving out idle runs at the front changes no step. -/
theorem filterMap_dropWhile_isIdle (runs : List Raw) :
    (runs.dropWhile isIdle).filterMap Component.ofRun? = runs.filterMap Component.ofRun? := by
  induction runs with
  | nil => rfl
  | cons run runs ih =>
    by_cases hidle : isIdle run
    · rw [List.dropWhile_cons_of_pos hidle, ih,
        List.filterMap_cons_none (Option.isNone_iff_eq_none.1 hidle)]
    · rw [List.dropWhile_cons_of_neg hidle]

/-- Leaving out idle runs at the end changes no step. -/
theorem filterMap_dropIdleEnd (runs : List Raw) :
    (dropIdleEnd runs).filterMap Component.ofRun? = runs.filterMap Component.ofRun? := by
  rw [dropIdleEnd, List.filterMap_reverse, filterMap_dropWhile_isIdle, List.filterMap_reverse,
    List.reverse_reverse]

/-- Going down by some steps leaves the steps behind them. -/
theorem filterMap_dropSteps (n : Nat) (runs : List Raw) :
    (dropSteps n runs).filterMap Component.ofRun? =
      (runs.filterMap Component.ofRun?).drop n := by
  induction runs generalizing n with
  | nil => cases n <;> simp [dropSteps]
  | cons run runs ih =>
    cases n with
    | zero => rw [dropSteps, List.drop_zero]
    | succ n =>
      rw [dropSteps]
      split
      next hidle =>
        rw [ih, List.filterMap_cons_none (Option.isNone_iff_eq_none.1 hidle)]
      next hidle =>
        obtain ⟨c, hc⟩ := Option.ne_none_iff_exists'.1 fun h =>
          hidle (Option.isNone_iff_eq_none.2 h)
        rw [ih, List.filterMap_cons_some hc, List.drop_succ_cons]

/-- What is left after some steps are the last runs. -/
theorem dropSteps_suffix (n : Nat) (runs : List Raw) : dropSteps n runs <:+ runs := by
  induction runs generalizing n with
  | nil => cases n <;> exact List.suffix_rfl
  | cons run runs ih =>
    cases n with
    | zero => exact List.suffix_rfl
    | succ n =>
      rw [dropSteps]
      split
      · exact (ih (n + 1)).trans (List.suffix_cons run runs)
      · exact (ih n).trans (List.suffix_cons run runs)

/-- What is left without the idle end are the first runs. -/
theorem isPrefix_dropIdleEnd (runs : List Raw) : dropIdleEnd runs <+: runs := by
  have h := List.dropWhile_suffix isIdle (l := runs.reverse)
  rwa [← List.reverse_prefix, List.reverse_reverse] at h

/-- The last run that is left counts. -/
theorem getLast?_dropIdleEnd (runs : List Raw) :
    ∀ run ∈ (dropIdleEnd runs).getLast?, isIdle run = false := by
  intro run hrun
  rw [dropIdleEnd, List.getLast?_reverse] at hrun
  have hhead := List.head?_dropWhile_not isIdle runs.reverse
  rw [Option.mem_def.1 hrun] at hhead
  exact hhead

/-- How a path begins is told by its first run. -/
theorem opening_of_split {first : Raw} (h : p.raw.split = first :: runs) :
    p.opening = if first = "" ∧ runs ≠ [] then (some .root, runs)
      else if first = "." then (some .here, runs) else (none, first :: runs) := by
  rw [opening, h]

/-- A path has a first run. -/
theorem exists_split (p : Path) : ∃ first runs, p.raw.split = first :: runs :=
  List.exists_cons_of_ne_nil p.raw.split_ne_nil

/-- No run behind the beginning of a path holds a slash. -/
theorem not_mem_of_mem_opening (h : run ∈ p.opening.2) : Raw.slash ∉ run.bytes := by
  obtain ⟨first, runs, hsplit⟩ := exists_split p
  refine Raw.not_mem_of_mem_split (r := p.raw) ?_
  rw [hsplit]
  rw [opening_of_split hsplit] at h
  split_ifs at h
  · exact List.mem_cons_of_mem first h
  · exact List.mem_cons_of_mem first h
  · exact h

/-! ### What is left of a path -/

/-- A path starts with another one if the components do. -/
theorem startsWith_iff : p.startsWith base ↔ base.components <+: p.components :=
  List.isPrefixOf_iff_prefix

/-- What starts with a path can be stripped of it. -/
theorem exists_strip? (h : p.startsWith base) : ∃ below, p.strip? base = some below := by
  unfold strip?
  rw [if_pos h]
  simp only
  split <;> exact ⟨_, rfl⟩

/-- What starts with a path has a reading below it. -/
theorem exists_below? (h : p.startsWith base) : ∃ text, p.below? base = some text := by
  obtain ⟨below, hbelow⟩ := exists_strip? h
  exact ⟨below.text, congrArg (Option.map Raw.text) hbelow⟩

/-- A path opens with nothing, with the root or with the current directory. -/
theorem opening_cases (p : Path) :
    p.opening.1 = none ∨ p.opening.1 = some .root ∨ p.opening.1 = some .here := by
  obtain ⟨first, runs, hsplit⟩ := exists_split p
  rw [opening_of_split hsplit]
  split_ifs <;> simp

/-- The components of a path are its opening and the steps of its runs. -/
theorem components_eq (p : Path) :
    p.components = p.opening.1.toList ++ p.opening.2.filterMap Component.ofRun? := rfl

/-- A path without a beginning of its own is all runs, and the first is no beginning. -/
theorem split_of_opening (h : p.opening.1 = none) :
    ∃ first runs, p.raw.split = first :: runs ∧ p.opening.2 = first :: runs ∧
      ¬(first = "" ∧ runs ≠ []) ∧ first ≠ "." := by
  obtain ⟨first, runs, hsplit⟩ := exists_split p
  rw [opening_of_split hsplit] at h ⊢
  split_ifs at h ⊢ with hroot hhere
  exact ⟨first, runs, hsplit, rfl, hroot, hhere⟩

/-- A path without a beginning of its own starts with a run that counts, unless none does. -/
theorem head?_dropIdleEnd_opening (h : p.opening.1 = none) :
    ∀ run ∈ (dropIdleEnd p.opening.2).head?, isIdle run = false := by
  intro run hrun
  obtain ⟨first, runs, -, hopening, hroot, hhere⟩ := split_of_opening h
  obtain ⟨rest, hrest⟩ := isPrefix_dropIdleEnd p.opening.2
  obtain ⟨front, hfront⟩ := List.head?_eq_some_iff.1 (Option.mem_def.1 hrun)
  have hwhole : run :: (front ++ rest) = first :: runs := by
    rw [← hopening, ← hrest, hfront, List.cons_append]
  obtain ⟨rfl, hruns⟩ := List.cons.inj hwhole
  rw [Bool.eq_false_iff]
  intro hidle
  rcases ofRun?_eq_none.1 (Option.isNone_iff_eq_none.1 hidle) with rfl | rfl
  · -- An empty first run is the only one, and then nothing is left that counts.
    have hnil : runs = [] := by
      by_contra hne
      exact hroot ⟨rfl, hne⟩
    rw [hopening, hnil] at hfront
    cases hfront
  · exact hhere rfl

/-- What is left when runs that count for nothing are dropped at both ends starts with one that
counts. -/
theorem head?_dropIdleEnd_dropWhile (runs : List Raw) :
    ∀ run ∈ (dropIdleEnd (runs.dropWhile isIdle)).head?, isIdle run = false := by
  intro run hrun
  obtain ⟨rest, hrest⟩ := isPrefix_dropIdleEnd (runs.dropWhile isIdle)
  have hhead := List.head?_dropWhile_not isIdle runs
  rw [← hrest, List.head?_append, Option.mem_def.1 hrun] at hhead
  exact hhead

/-- **What is left of a path below another is made of runs**: they lead on to the path, and the
first and the last one count. -/
theorem exists_runs_of_strip? (h : p.strip? base = some below)
    (hbase : base.components ≠ [] ∨ p.opening.1 = none) :
    ∃ runs, below = Raw.join runs ∧ (∀ run ∈ runs, Raw.slash ∉ run.bytes) ∧
      (∀ run ∈ runs.head?, isIdle run = false) ∧ (∀ run ∈ runs.getLast?, isIdle run = false) ∧
      p.components = base.components ++ runs.filterMap Component.ofRun? := by
  unfold strip? at h
  split at h
  next hstarts =>
    obtain ⟨rest, hrest⟩ := startsWith_iff.1 hstarts
    suffices hruns : ∃ suffix, suffix <:+ p.opening.2 ∧
        below = Raw.join (dropIdleEnd suffix) ∧
        (∀ run ∈ (dropIdleEnd suffix).head?, isIdle run = false) ∧
        suffix.filterMap Component.ofRun? = p.components.drop base.components.length by
      obtain ⟨suffix, hsuffix, htext, hhead, hsteps⟩ := hruns
      refine ⟨dropIdleEnd suffix, htext, fun run hrun => not_mem_of_mem_opening
        (hsuffix.mem ((isPrefix_dropIdleEnd suffix).mem hrun)), hhead,
        getLast?_dropIdleEnd suffix, ?_⟩
      rw [filterMap_dropIdleEnd, hsteps, ← hrest, List.drop_left]
    rcases hlength : base.components.length with - | n
    · have hnone : p.opening.1 = none := hbase.resolve_left fun hne =>
        hne (List.length_eq_zero_iff.1 hlength)
      simp only [hlength, hnone, Option.some.injEq] at h
      refine ⟨p.opening.2, List.suffix_rfl, h.symm, head?_dropIdleEnd_opening hnone, ?_⟩
      rw [components_eq, hnone]
      rfl
    · simp only [hlength, Option.some.injEq] at h
      refine ⟨_, (List.dropWhile_suffix _).trans (dropSteps_suffix _ _), h.symm,
        head?_dropIdleEnd_dropWhile _, ?_⟩
      rw [filterMap_dropWhile_isIdle, filterMap_dropSteps, components_eq]
      cases p.opening.1 <;> rfl
  · cases h

/-- **The steps of what is left of a path below another lead from there to it.** -/
theorem components_of_strip? (h : p.strip? base = some below)
    (hbase : base.components ≠ [] ∨ p.opening.1 = none) :
    p.components = base.components ++ steps below := by
  obtain ⟨runs, rfl, hslash, -, -, hsteps⟩ := exists_runs_of_strip? h hbase
  rw [hsteps, steps]
  by_cases hruns : runs = []
  · subst hruns
    rfl
  · rw [Raw.split_join hruns hslash]

/-! ### Names -/

/-- The names that stand for no step are the empty one and the dot. -/
theorem ofName?_eq_none {name : String} :
    Component.ofName? name = none ↔ name = "" ∨ name = "." := by
  rw [Component.ofName?, ofRun?_eq_none, Raw.ofText_inj, Raw.ofText_inj]

/-- The steps of texts are those of their names. -/
theorem filterMap_ofRun?_map (texts : List String) :
    (texts.map Raw.ofText).filterMap Component.ofRun? = texts.filterMap Component.ofName? :=
  List.filterMap_map

/-- Empty names are no steps. -/
theorem filterMap_filter_ne (texts : List String) :
    (texts.filter (· ≠ "")).filterMap Component.ofName? = texts.filterMap Component.ofName? := by
  rw [List.filterMap_filter]
  refine List.filterMap_congr fun s _ => ?_
  split
  · rfl
  next hempty => exact (ofName?_eq_none.2 (.inl (by simpa using hempty))).symm

/-- Empty runs of a text are no names, and no steps. -/
theorem steps_ofText (text : String) :
    steps text = (Resource.pathNames text).filterMap Component.ofName? := by
  rw [steps, Raw.split_ofText, filterMap_ofRun?_map, Resource.pathNames, filterMap_filter_ne]

/-- If no further steps are in a path of which the last name counts, then no further names are. -/
theorem eq_nil_of_filterMap_eq {names extra whole : List String} (hne : ∀ s ∈ whole, s ≠ "")
    (hsplit : names ++ extra = whole)
    (hsteps : names.filterMap Component.ofName? = whole.filterMap Component.ofName?)
    (hlast : whole.getLast? ≠ some ".") : extra = [] := by
  rw [← hsplit, List.filterMap_append, List.self_eq_append_right] at hsteps
  rcases List.eq_nil_or_concat extra with rfl | ⟨front, last, rfl⟩
  · rfl
  · have hmem : last ∈ whole := by simp [← hsplit]
    rcases ofName?_eq_none.1 (List.filterMap_eq_nil_iff.1 hsteps last (by simp)) with hempty | hdot
    · exact absurd hempty (hne last hmem)
    · simp [← hsplit, hdot] at hlast

/-- A step as it reads. -/
def Component.asText : Component → Component
  | .name s => .name s.text
  | c => c

/-- What a run reads as stands for the step as it reads. -/
theorem ofName?_text (run : Raw) :
    Component.ofName? run.text = (Component.ofRun? run).map Component.asText := by
  have hempty : run.text = "" ↔ run = "" := Raw.text_eq_iff (by decide)
  have hhere : run.text = "." ↔ run = "." := Raw.text_eq_iff (by decide)
  have hup : run.text = ".." ↔ run = ".." := Raw.text_eq_iff (by decide)
  simp only [Component.ofName?, Component.ofRun?, Raw.ofText_inj, hempty, hhere, hup]
  split_ifs <;> rfl

/-- The step of a name reads as itself. -/
theorem ofName?_asText (name : String) :
    (Component.ofName? name).map Component.asText = Component.ofName? name := by
  have h := ofName?_text (Raw.ofText name)
  rw [Raw.text_ofText] at h
  exact h.symm

/-- Steps that read as the first of some others are these, if different ones read differently. -/
theorem isPrefix_of_asText {steps steps' : List Component}
    (h : ∀ c ∈ steps, ∀ c' ∈ steps', c.asText = c'.asText → c = c')
    (hread : steps.map Component.asText <+: steps'.map Component.asText) : steps <+: steps' := by
  induction steps generalizing steps' with
  | nil => exact List.nil_prefix
  | cons c steps ih =>
    cases steps' with
    | nil => simp at hread
    | cons c' steps' =>
      obtain ⟨hfirst, hrest⟩ := List.cons_prefix_cons.1 hread
      obtain rfl := h c List.mem_cons_self c' List.mem_cons_self hfirst
      refine List.cons_prefix_cons.2 ⟨rfl, ih (fun d hd d' hd' => ?_) hrest⟩
      exact h d (List.mem_cons_of_mem _ hd) d' (List.mem_cons_of_mem _ hd')

/-- A run that stands for a name is that name. -/
theorem eq_of_ofRun? {name : Raw} (h : Component.ofRun? run = some (.name name)) : run = name := by
  unfold Component.ofRun? at h
  split_ifs at h
  · cases h
  · exact Component.name.inj (Option.some.inj h)

/-- A path that leads by names from one without steps has no beginning of its own. -/
theorem opening_of_names {names : List Raw}
    (h : p.components = base.components ++ names.map .name) :
    base.components ≠ [] ∨ p.opening.1 = none := by
  refine or_iff_not_imp_left.2 fun hnil => ?_
  rw [not_not.1 hnil, List.nil_append, components_eq] at h
  rcases opening_cases p with hnone | hfirst | hfirst
  · exact hnone
  · rw [hfirst] at h
    cases names <;> simp at h
  · rw [hfirst] at h
    cases names <;> simp at h

/-- Names that lead from one path lead from every longer one on the way, too. -/
theorem exists_names_of_startsWith {deep : Path} {names : List Raw}
    (h : p.components = base.components ++ names.map .name) (hdeep : p.startsWith deep)
    (hlength : base.components.length ≤ deep.components.length) :
    ∃ names, p.components = deep.components ++ List.map .name names := by
  obtain ⟨rest, hrest⟩ := startsWith_iff.1 hdeep
  obtain ⟨between, hbetween⟩ :=
    List.prefix_of_prefix_length_le (h ▸ List.prefix_append _ _) (startsWith_iff.1 hdeep) hlength
  rw [← hrest, ← hbetween, List.append_assoc, List.append_cancel_left_eq] at h
  obtain ⟨_, last, -, -, hlast⟩ := List.map_eq_append_iff.1 h.symm
  exact ⟨last, by rw [hlast, hrest]⟩

/-- A path leads from another one downwards, by names that are texts without a backslash. -/
def Descends (p base : Path) : Prop :=
  ∃ names : List String, p.components = base.components ++ names.map (fun name => .name name) ∧
    ∀ name ∈ names, '\\' ∉ name.toList

/-- A path leads from another one downwards, by names without a backslash, whatever they read as. -/
def DescendsByBytes (p base : Path) : Prop :=
  ∃ names : List Raw, p.components = base.components ++ names.map .name ∧
    ∀ name ∈ names, (0x5C : UInt8) ∉ name.bytes

/-- A path descends if the names on the way are texts without a backslash. -/
theorem descends_of_names {names : List Raw}
    (h : p.components = base.components ++ names.map .name)
    (hnames : ∀ name ∈ names, ∃ s : String, '\\' ∉ s.toList ∧ Raw.ofText s = name) :
    p.Descends base := by
  obtain ⟨texts, rfl, hplain⟩ := Raw.exists_map_ofText hnames
  rw [List.map_map] at h
  exact ⟨texts, h, hplain⟩

/-- What a run that counts reads as is neither empty nor a dot. -/
theorem counts_of_isIdle (h : isIdle run = false) : run.text ≠ "" ∧ run.text ≠ "." := by
  refine not_or.1 fun hidle => ?_
  rw [← ofName?_eq_none, ofName?_text, Option.map_eq_none_iff] at hidle
  rw [isIdle, hidle] at h
  cases h

/-- The first name in a text counts if its first run does. -/
theorem head?_filter_ne {texts : List String} (h : ∀ s ∈ texts.head?, s ≠ "" ∧ s ≠ ".") :
    (texts.filter (· ≠ "")).head? ≠ some "." := by
  cases texts with
  | nil => simp
  | cons s texts =>
    obtain ⟨hempty, hdot⟩ := h s rfl
    rw [List.filter_cons_of_pos (by simpa using hempty)]
    simpa using hdot

/-- The last name in a text counts if its last run does. -/
theorem getLast?_filter_ne {texts : List String} (h : ∀ s ∈ texts.getLast?, s ≠ "" ∧ s ≠ ".") :
    (texts.filter (· ≠ "")).getLast? ≠ some "." := by
  rw [← List.head?_reverse, ← List.filter_reverse]
  exact head?_filter_ne fun s hs => h s (by rwa [List.head?_reverse] at hs)

/-- The steps from a path to one below it. -/
def stepsBelow (p base : Path) : List Component := p.components.drop base.components.length

/-- What a path starts with leads on by the steps to it. -/
theorem components_eq_append (h : p.startsWith base) :
    p.components = base.components ++ p.stepsBelow base := by
  obtain ⟨rest, hrest⟩ := startsWith_iff.1 h
  rw [stepsBelow, ← hrest, List.drop_left]

/-- A path from which another one leads downwards is one that this starts with. -/
theorem DescendsByBytes.startsWith (h : p.DescendsByBytes base) : p.startsWith base := by
  obtain ⟨names, hnames, -⟩ := h
  exact startsWith_iff.2 (hnames ▸ List.prefix_append _ _)

/-- A path that leads downwards by texts leads downwards. -/
theorem Descends.byBytes (h : p.Descends base) : p.DescendsByBytes base := by
  obtain ⟨names, hnames, hplain⟩ := h
  refine ⟨names.map Raw.ofText, by rw [hnames, List.map_map]; rfl, fun name hname => ?_⟩
  obtain ⟨s, hs, rfl⟩ := List.mem_map.1 hname
  rw [Raw.bytes_ofText, List.mem_flatMap]
  rintro ⟨c, hc, hmem⟩
  exact hplain s hs (Text.Utf8.eq_of_mem_utf8EncodeChar (a := '\\') (by decide) hmem ▸ hc)

/-- **What is left of a path that leads downwards reads as the steps to it.** It has no backslash,
and its first and its last name count. -/
theorem DescendsByBytes.exists_below? (h : p.DescendsByBytes base) :
    ∃ text, p.below? base = some text ∧ '\\' ∉ text.toList ∧
      (p.stepsBelow base).map Component.asText =
        (Resource.pathNames text).filterMap Component.ofName? ∧
      (Resource.pathNames text).head? ≠ some "." ∧
      (Resource.pathNames text).getLast? ≠ some "." := by
  have hstarts := h.startsWith
  obtain ⟨names, hnames, hplain⟩ := h
  have hbase := opening_of_names hnames
  obtain ⟨below, hbelow⟩ := exists_strip? hstarts
  obtain ⟨runs, rfl, hslash, hhead, hlast, hsteps⟩ := exists_runs_of_strip? hbelow hbase
  have hruns : runs.filterMap Component.ofRun? = p.stepsBelow base :=
    List.append_cancel_left (hsteps.symm.trans (components_eq_append hstarts))
  have hread : ∀ s ∈ runs.map Raw.text, '/' ∉ s.toList ∧ '\\' ∉ s.toList := by
    intro s hs
    obtain ⟨run, hrun, rfl⟩ := List.mem_map.1 hs
    refine ⟨Raw.not_mem_text (by decide) (by decide) (hslash run hrun), ?_⟩
    -- Every run counts for nothing or is a name, so no backslash is in it.
    refine Raw.not_mem_text (by decide) (by decide) ?_
    cases hstep : Component.ofRun? run with
    | none => rcases ofRun?_eq_none.1 hstep with rfl | rfl <;> decide
    | some c =>
      rw [hnames, List.append_cancel_left_eq] at hsteps
      obtain ⟨name, hname, rfl⟩ :=
        List.mem_map.1 (hsteps ▸ List.mem_filterMap.2 ⟨run, hrun, hstep⟩)
      exact eq_of_ofRun? hstep ▸ hplain name hname
  have hpath : Resource.pathNames (Text.join '/' (runs.map Raw.text)) =
      (runs.map Raw.text).filter (· ≠ "") := by
    by_cases hnil : runs = []
    · subst hnil
      rfl
    · rw [Resource.pathNames, Text.split_join (by simpa using hnil) fun s hs => (hread s hs).1]
  refine ⟨Text.join '/' (runs.map Raw.text), ?_,
    Text.not_mem_join (by decide) fun s hs => (hread s hs).2, ?_, ?_, ?_⟩
  · rw [below?, hbelow, Option.map_some, Raw.text_join]
  · rw [← hruns, List.map_filterMap, hpath, filterMap_filter_ne, List.filterMap_map]
    exact List.filterMap_congr fun run _ => (ofName?_text run).symm
  · rw [hpath]
    refine head?_filter_ne fun s hs => ?_
    rw [List.head?_map, Option.mem_def, Option.map_eq_some_iff] at hs
    obtain ⟨run, hrun, rfl⟩ := hs
    exact counts_of_isIdle (hhead run hrun)
  · rw [hpath]
    refine getLast?_filter_ne fun s hs => ?_
    rw [List.getLast?_map, Option.mem_def, Option.map_eq_some_iff] at hs
    obtain ⟨run, hrun, rfl⟩ := hs
    exact counts_of_isIdle (hlast run hrun)

/-- Where the way down is by texts, what is left of the path leads on to it. -/
theorem Descends.exists_below? (h : p.Descends base) :
    ∃ text, p.below? base = some text ∧ '\\' ∉ text.toList ∧
      p.components = base.components ++
        (Resource.pathNames text).filterMap Component.ofName? ∧
      (Resource.pathNames text).head? ≠ some "." ∧
      (Resource.pathNames text).getLast? ≠ some "." := by
  obtain ⟨text, htext, hplain, hsteps, hends⟩ := h.byBytes.exists_below?
  have hread : (p.stepsBelow base).map Component.asText = p.stepsBelow base := by
    obtain ⟨names, hnames, -⟩ := h
    rw [stepsBelow, hnames, List.drop_left, List.map_map]
    refine List.map_congr_left fun name _ => ?_
    exact congrArg (fun s : String => Component.name s) (Raw.text_ofText name)
  rw [hread] at hsteps
  exact ⟨text, htext, hplain, hsteps ▸ components_eq_append h.byBytes.startsWith, hends⟩

/-- Where nothing is left of a path below another, the two are the same. -/
theorem same_of_below?_eq_empty (h : p.below? base = some "") : p.same base := by
  obtain ⟨below, hstrip, hread⟩ := Option.map_eq_some_iff.1 h
  obtain rfl := Raw.text_eq_empty.1 hread
  by_cases hbase : base.components ≠ [] ∨ p.opening.1 = none
  · have hsteps := components_of_strip? hstrip hbase
    rw [show steps "" = [] from rfl, List.append_nil] at hsteps
    exact decide_eq_true hsteps
  · rw [not_or, not_not] at hbase
    obtain ⟨hnil, hfirst⟩ := hbase
    unfold strip? at hstrip
    rw [if_pos (startsWith_iff.2 (hnil ▸ List.nil_prefix))] at hstrip
    simp only [hnil, List.length_nil, Option.some.injEq] at hstrip
    refine absurd hstrip ?_
    rcases opening_cases p with hnone | hroot | hhere
    · exact absurd hnone hfirst
    · rw [hroot]
      exact fun hempty => List.cons_ne_nil _ _ (congrArg Raw.bytes hempty)
    · rw [hhere]
      intro hempty
      have hslash : ∀ run ∈ (("." : Raw) :: dropIdleEnd p.opening.2), Raw.slash ∉ run.bytes := by
        intro run hrun
        rcases List.mem_cons.1 hrun with rfl | hrun
        · decide
        · exact not_mem_of_mem_opening ((isPrefix_dropIdleEnd _).mem hrun)
      have hsplit := Raw.split_join (by simp) hslash
      rw [show Raw.join (("." : Raw) :: dropIdleEnd p.opening.2) = "" from hempty] at hsplit
      exact absurd (List.cons.inj hsplit).1 (by decide)

/-! ### Paths below a location -/

/-- A slash between two raw texts separates their runs. -/
theorem split_append (front below : Raw) :
    (front ++ "/" ++ below).split = front.split ++ below.split := by
  have hbytes : (front ++ "/" ++ below).bytes = front.bytes ++ Raw.slash :: below.bytes := by
    change front.bytes ++ [Raw.slash] ++ below.bytes = _
    simp
  rw [Raw.split, hbytes, Text.splitRuns_append_append, List.map_append]
  rfl

/-- The first run of a path may be its beginning, all others are steps. -/
theorem components_of_split {first : Raw} (h : p.raw.split = first :: runs) :
    p.components = (if first = "" ∧ runs ≠ [] then [.root] else if first = "." then [.here]
      else (Component.ofRun? first).toList) ++ runs.filterMap Component.ofRun? := by
  rw [components_eq, opening_of_split h]
  split_ifs
  · rfl
  · rfl
  · rw [Option.toList_none, List.nil_append, List.filterMap_cons]
    cases Component.ofRun? first <;> rfl

/-- A slash at the end adds an empty run. -/
theorem split_slash (front : Raw) : (front ++ "/").split = front.split ++ [("" : Raw)] := by
  have h := split_append front ""
  rwa [show front ++ "/" ++ "" = front ++ "/" from congrArg Raw.mk (List.append_nil _)] at h

/-- What stands behind a slash adds its steps. -/
theorem components_append (front below : Raw) :
    (⟨front ++ "/" ++ below⟩ : Path).components =
      (⟨front ++ "/"⟩ : Path).components ++ steps below := by
  obtain ⟨first, runs, hfront⟩ := List.exists_cons_of_ne_nil front.split_ne_nil
  have hlong := split_append front below
  have hshort := split_slash front
  rw [hfront, List.cons_append] at hlong hshort
  rw [components_of_split hlong, components_of_split hshort, List.append_assoc, steps,
    List.filterMap_append, List.filterMap_append]
  simp [Raw.split_ne_nil, show Component.ofRun? "" = none from rfl]

/-- A slash behind a path does not count. -/
theorem components_slash {front : Raw} (h : front ≠ "") :
    (⟨front ++ "/"⟩ : Path).components = (⟨front⟩ : Path).components := by
  obtain ⟨first, runs, hfront⟩ := List.exists_cons_of_ne_nil front.split_ne_nil
  have hlong := split_slash front
  rw [hfront, List.cons_append] at hlong
  have hroot : first = "" → runs ≠ [] := by
    rintro rfl rfl
    exact h (by rw [← Raw.join_split front, hfront]; rfl)
  rw [components_of_split hlong, components_of_split (p := ⟨front⟩) hfront, List.filterMap_append]
  by_cases hfirst : first = "" <;> simp_all [show Component.ofRun? "" = none from rfl]

/-- A relative path below a location leads on from there. -/
theorem components_join {p : Path} (hp : p.raw ≠ "") {below : Raw}
    (hbelow : below.isAbsolute = false) :
    (p.join below).components = p.components ++ steps below := by
  rw [join, if_neg (by simp [hbelow])]
  split
  next hend =>
    obtain ⟨front, hfront⟩ : ∃ front, p.raw = front ++ "/" := by
      rw [Raw.isOpen, Bool.or_eq_true, List.isEmpty_iff, decide_eq_true_iff] at hend
      obtain ⟨bytes, hbytes⟩ := List.getLast?_eq_some_iff.1
        (hend.resolve_left fun hnil => hp (congrArg Raw.mk hnil))
      exact ⟨⟨bytes⟩, congrArg Raw.mk hbytes⟩
    rw [hfront, components_append, ← hfront]
  · rw [components_append, components_slash hp]

/-- Names below a location are the next steps. -/
theorem components_join_text {p : Path} (hp : p.raw ≠ "") {names : List String}
    (h : ∀ s ∈ names, Text.Segment '/' s) :
    (p.join (Text.join '/' names)).components =
      p.components ++ names.filterMap Component.ofName? := by
  have hrelative : (Raw.ofText (Text.join '/' names)).isAbsolute = false := by
    rw [Bool.eq_false_iff, ne_eq, Raw.isAbsolute_ofText]
    exact (Text.trimmed_join h).head
  rw [components_join hp hrelative, steps_ofText, Resource.pathNames_join h]

/-- The names in a relative text without a beginning of its own are its steps. -/
theorem components_join_names {names : List String} (h : ∀ s ∈ names, Text.Segment '/' s) :
    (⟨Text.join '/' names⟩ : Path).components =
      (if names.head? = some "." then [.here] else []) ++
        names.filterMap Component.ofName? := by
  cases names with
  | nil => rfl
  | cons name names =>
    have hsplit : (Raw.ofText (Text.join '/' (name :: names))).split =
        (name : Raw) :: names.map Raw.ofText := by
      rw [Raw.split_ofText, Text.split_join (List.cons_ne_nil name names) fun s hs => (h s hs).2]
      rfl
    have hne : name ≠ "" := (h name List.mem_cons_self).1
    rw [components_of_split (p := ⟨Text.join '/' (name :: names)⟩) hsplit, List.filterMap_cons,
      filterMap_ofRun?_map]
    by_cases hdot : name = "."
    · subst hdot
      simp [Component.ofName?, Component.ofRun?]
    · cases hstep : Component.ofName? name with
      | none => exact absurd (ofName?_eq_none.1 hstep) (by simp [hne, hdot])
      | some step => simp [hne, hdot, show Component.ofRun? name = some step from hstep]

/-! ### The order of paths -/

instance : Std.TransOrd Raw := inferInstanceAs (Std.TransCmp (compareOn Raw.bytes))

instance : Std.LawfulEqOrd Raw where
  eq_of_compare h := congrArg Raw.mk (Std.LawfulEqOrd.eq_of_compare (α := List UInt8) h)

instance : Std.TransOrd Component :=
  inferInstanceAs (Std.TransCmp (compareLex (compareOn Component.rank) (compareOn Component.raw)))

instance : Std.LawfulEqOrd Component where
  eq_of_compare := by
    intro c d h
    obtain ⟨hrank, hraw⟩ := Ordering.then_eq_eq.1 h
    have hrank := Std.LawfulEqOrd.eq_of_compare hrank
    have hraw := Std.LawfulEqOrd.eq_of_compare hraw
    cases c <;> cases d <;> simp_all [Component.rank, Component.raw]

instance : Std.TransOrd Path := inferInstanceAs (Std.TransCmp (compareOn components))

/-- Paths are compared by their components. -/
theorem compare_eq (p q : Path) : compare p q = compare p.components q.components := rfl

/-- A path that lies above another, and does not come before it, has the same components. -/
theorem eq_of_isPrefix_of_isLE (h : base.components <+: p.components)
    (hle : (compare p base).isLE) : base.components = p.components := by
  rw [compare_eq] at hle
  obtain ⟨rest, hrest⟩ := h
  rw [← hrest] at hle ⊢
  generalize base.components = front at hle
  induction front with
  | nil =>
    cases rest with
    | nil => rfl
    | cons c rest => simp at hle
  | cons c front ih =>
    rw [List.cons_append, List.compare_cons_cons, Std.ReflOrd.compare_self] at hle
    rw [List.cons_append, ← ih hle]

end Path

namespace Entry

/-- The order of the entries is transitive. -/
theorem isLE_trans (a b c : Entry) (hab : (compare a.path b.path).isLE)
    (hbc : (compare b.path c.path).isLE) : (compare a.path c.path).isLE :=
  Std.TransOrd.isLE_trans hab hbc

/-- Any two entries are in order one way or the other. -/
theorem isLE_total (a b : Entry) :
    (compare a.path b.path).isLE || (compare b.path a.path).isLE := by
  rw [Std.OrientedOrd.eq_swap (a := b.path)]
  cases compare a.path b.path <;> rfl

/-- Arranged entries are in the order of their paths. -/
theorem pairwise_arrange (entries : List Entry) :
    (arrange entries).Pairwise fun a b => (compare a.path b.path).isLE :=
  List.pairwise_mergeSort isLE_trans isLE_total entries

end Entry

end StatusCache
