/-
# URLs of places

The URL of a place is its path inside the project, appended to the URL of the project. Appending
goes step by step: the URL of a place below a container is the path between the two, appended to the
URL of the container (`Url.append_projectPath`). A URL lies at or below itself, and at or below what
is left of it without its last segment (`Url.isPrefix_beforeLast`).
-/

import StatusCache.Proofs.Place
import StatusCache.Url

namespace StatusCache

open Resource (Proper)

namespace Url

/-- Whether two texts name one place: slashes at their ends do not count. -/
def Same (url url' : String) : Prop := Text.trimEnd '/' url = Text.trimEnd '/' url'

instance (url url' : String) : Decidable (Same url url') := inferInstanceAs (Decidable (_ = _))

variable {xs ys : List String} {r a : Resource}

/-- Nothing is appended by an empty path. -/
theorem append_empty (base : String) : append base "" = base := rfl

/-- Segments are appended behind a slash. -/
theorem append_join (base : String) (h : ∀ s ∈ xs, Text.Segment '/' s) (hne : xs ≠ []) :
    append base (Text.join '/' xs) = Text.trimEnd '/' base ++ "/" ++ Text.join '/' xs := by
  rw [append, Text.trim_join h]
  simp only [Text.join_eq_empty h, hne, if_false]

/-- Appended segments leave nothing to trim. -/
theorem trimEnd_append_join (base : String) (h : ∀ s ∈ xs, Text.Segment '/' s) (hne : xs ≠ []) :
    Text.trimEnd '/' (append base (Text.join '/' xs)) = append base (Text.join '/' xs) := by
  rw [append_join base h hne, Text.trimEnd, String.toList_append, Text.dropEnd_append_join h hne,
    ← String.toList_append, String.ofList_toList]

/-- Segments are appended one after the other. -/
theorem append_append (base : String) (hxs : ∀ s ∈ xs, Text.Segment '/' s)
    (hys : ∀ s ∈ ys, Text.Segment '/' s) :
    append (append base (Text.join '/' xs)) (Text.join '/' ys) =
      append base (Text.join '/' (xs ++ ys)) := by
  by_cases hx : xs = []
  · subst hx
    rfl
  by_cases hy : ys = []
  · subst hy
    rw [List.append_nil]
    exact append_empty _
  have hboth : ∀ s ∈ xs ++ ys, Text.Segment '/' s := fun s hs =>
    (List.mem_append.1 hs).elim (hxs s) (hys s)
  have hjoin : Text.join '/' (xs ++ ys) = Text.join '/' xs ++ "/" ++ Text.join '/' ys := by
    refine String.toList_inj.1 ?_
    simp [Text.toList_join_append hx hy]
  rw [append_join _ hys hy, trimEnd_append_join base hxs hx, append_join base hxs hx,
    append_join base hboth (by simp [hx]), hjoin]
  simp only [String.append_assoc]

/-- Below two URLs the same segments give two URLs, unless these name one place. -/
theorem append_join_inj (h : ∀ s ∈ xs, Text.Segment '/' s) (hne : xs ≠ []) (url url' : String) :
    append url (Text.join '/' xs) = append url' (Text.join '/' xs) ↔ Same url url' := by
  rw [append_join url h hne, append_join url' h hne, String.append_assoc, String.append_assoc,
    String.append_left_inj, Same]

/-- Appending the same segments keeps URLs apart that are not the same. -/
theorem same_append_join (h : ∀ s ∈ xs, Text.Segment '/' s) (url url' : String) :
    Same (append url (Text.join '/' xs)) (append url' (Text.join '/' xs)) ↔ Same url url' := by
  by_cases hne : xs = []
  · subst hne
    rfl
  · rw [Same, trimEnd_append_join url h hne, trimEnd_append_join url' h hne,
      append_join_inj h hne]

/-- **The URL of a place below a container** is the path between the two, appended to the URL of the
container. -/
theorem append_projectPath (base : String) (hr : r.Proper) (ha : a ∈ r.lineage)
    (hroot : a.kind ≠ .root) :
    append (append base a.projectPath) ((r.relativeTo? a).getD "") =
      append base r.projectPath := by
  obtain ⟨below, hbelow⟩ := hr.exists_split ha
  have haproper := hr.of_mem_lineage ha
  have hne : a.segments ≠ [] := fun hnil => hroot (haproper.kind_eq_root.2 hnil)
  have hdrop : r.segments.drop 1 = a.segments.drop 1 ++ below := by
    rw [hbelow, List.drop_append_of_le_length (List.length_pos_iff.2 hne)]
  have hsegments : ∀ s ∈ r.segments.drop 1, Text.Segment '/' s :=
    fun s hs => hr.segment s (List.mem_of_mem_drop hs)
  rw [hdrop] at hsegments
  rw [hr.relativeTo?_eq ha hbelow, Option.getD_some, Resource.projectPath, haproper.names_eq,
    Resource.projectPath, hr.names_eq, hdrop]
  exact append_append base (fun s hs => hsegments s (List.mem_append_left _ hs))
    (fun s hs => hsegments s (List.mem_append_right _ hs))

/-! ### Lying below -/

/-- A URL is above another, up to slashes at the end, if it is that or goes on with a slash. -/
theorem isPrefix_iff {above url : String} : isPrefix above url ↔
    Text.dropEnd '/' url.toList = Text.dropEnd '/' above.toList ∨
      Text.dropEnd '/' above.toList ++ ['/'] <+: Text.dropEnd '/' url.toList := by
  simp [isPrefix, Text.trimEnd, List.isPrefixOf_iff_prefix]

/-- A URL is above itself. -/
theorem isPrefix_self (url : String) : isPrefix url url := isPrefix_iff.2 (.inl rfl)

/-- What stands between the slashes of a URL, those at its end apart. -/
def segments (url : String) : List String := Text.split '/' (Text.trimEnd '/' url)

/-- **One URL lies at or below another if its segments begin with those of the other.** -/
theorem isPrefix_iff_segments {above url : String} :
    isPrefix above url ↔ segments above <+: segments url := by
  rw [isPrefix_iff, segments, segments, Text.split_prefix_iff]
  simp [Text.trimEnd]

/-- **A URL lies at or below what is left of it without its last segment**, whether that is empty,
or there are more slashes before it. -/
theorem isPrefix_beforeLast (url : String) : isPrefix (Text.beforeLast '/' url) url := by
  by_cases hfront : (Text.split '/' url).dropLast = []
  · rw [Text.beforeLast, hfront]
    exact isPrefix_self url
  obtain ⟨last, hlast, hurl⟩ := Text.exists_toList_eq_beforeLast hfront
  generalize Text.beforeLast '/' url = above at hurl ⊢
  rw [isPrefix_iff, hurl]
  rcases List.eq_nil_or_concat last with rfl | ⟨init, c, rfl⟩
  · exact .inl (Text.dropEnd_concat_self _)
  · right
    have hc : c ≠ '/' := fun heq => hlast (by simp [heq])
    obtain ⟨n, hslashes⟩ := Text.exists_dropEnd_append '/' above.toList
    have hshift : List.replicate n '/' ++ ['/'] = '/' :: List.replicate n '/' := by
      rw [← List.replicate_succ', List.replicate_succ]
    refine ⟨List.replicate n '/' ++ init ++ [c], Eq.symm ?_⟩
    calc Text.dropEnd '/' (above.toList ++ '/' :: init.concat c)
        = Text.dropEnd '/' ((above.toList ++ '/' :: init) ++ [c]) := by simp
      _ = above.toList ++ '/' :: (init ++ [c]) := by rw [Text.dropEnd_concat hc]; simp
      _ = Text.dropEnd '/' above.toList ++ (List.replicate n '/' ++ ['/']) ++ (init ++ [c]) := by
          conv => lhs; rw [hslashes]
          simp
      _ = Text.dropEnd '/' above.toList ++ ['/'] ++ (List.replicate n '/' ++ init ++ [c]) := by
          rw [hshift]
          simp

/-- Two texts name one place if they go on alike up to the slashes at their ends. -/
theorem toList_of_same {url url' : String} (h : Same url url') :
    Text.dropEnd '/' url'.toList = Text.dropEnd '/' url.toList := by
  have hlist := congrArg String.toList h
  simp only [Text.trimEnd, String.toList_ofList] at hlist
  exact hlist.symm

/-- A URL lies at or below every URL from which it is reached by segments. -/
theorem isPrefix_of_same_append {above url : String} (h : ∀ s ∈ xs, Text.Segment '/' s)
    (hsame : Same (append above (Text.join '/' xs)) url) : isPrefix above url := by
  rw [isPrefix_iff, toList_of_same hsame]
  by_cases hne : xs = []
  · subst hne
    exact .inl rfl
  · right
    rw [append_join above h hne, String.toList_append, Text.dropEnd_append_join h hne]
    simp [Text.trimEnd]

/-- **What is left of a URL below another** are the segments by which it is reached from there. -/
theorem below_of_same_append {above url : String} (h : ∀ s ∈ xs, Text.Segment '/' s)
    (hsame : Same (append above (Text.join '/' xs)) url) : below above url = Text.join '/' xs := by
  obtain ⟨n, hurl⟩ := Text.exists_dropEnd_append '/' url.toList
  rw [toList_of_same hsame] at hurl
  have hrest : ∃ m, url.toList.drop (Text.trimEnd '/' above).toList.length =
      List.replicate m '/' ++ (Text.join '/' xs).toList ++ List.replicate n '/' := by
    by_cases hne : xs = []
    · subst hne
      refine ⟨0, ?_⟩
      rw [hurl, Text.trimEnd, String.toList_ofList]
      exact List.drop_left
    · refine ⟨1, ?_⟩
      rw [hurl, append_join above h hne, String.toList_append, Text.dropEnd_append_join h hne,
        String.toList_append, List.append_assoc, List.append_assoc, List.drop_left]
      simp
  obtain ⟨m, hrest⟩ := hrest
  rw [below, hrest, (Text.trimmed_join h).trim_replicate, String.ofList_toList]

/-- A URL is reached from another by segments: none of them is empty. -/
def Tidy (above url : String) : Prop :=
  Same (append above (Text.join '/' (Resource.pathNames (below above url)))) url

instance (above url : String) : Decidable (Tidy above url) :=
  inferInstanceAs (Decidable (Same _ _))

/-- A URL is tidy below another just if some segments lead to it: they are then the ones left of it. -/
theorem tidy_iff {above url : String} :
    Tidy above url ↔
      ∃ xs, (∀ s ∈ xs, Text.Segment '/' s) ∧ Same (append above (Text.join '/' xs)) url := by
  constructor
  · intro h
    exact ⟨_, fun s hs => Resource.segment_of_mem_pathNames hs, h⟩
  · rintro ⟨xs, h, hsame⟩
    rwa [Tidy, below_of_same_append h hsame, Resource.pathNames_join h]

/-! ### Prefixes and what is appended -/

/-- Nothing is appended to a URL, or a slash and a text without slashes at its ends. -/
theorem append_cases (base relative : String) :
    (Text.trim '/' relative = "" ∧ append base relative = base) ∨
      (Text.trim '/' relative ≠ "" ∧
        append base relative = Text.trimEnd '/' base ++ ("/" ++ Text.trim '/' relative)) := by
  rw [append]
  by_cases hempty : Text.trim '/' relative = ""
  · exact .inl ⟨hempty, if_pos hempty⟩
  · refine .inr ⟨hempty, ?_⟩
    simp only [hempty, if_false, String.append_assoc]

/-- **A URL lies at or below the one that it was appended to.** -/
theorem isPrefix_append (base relative : String) : isPrefix base (append base relative) := by
  rcases append_cases base relative with ⟨-, hsame⟩ | ⟨hne, hmore⟩
  · rw [hsame]
    exact isPrefix_self base
  · have htext : (append base relative).toList =
        Text.dropEnd '/' base.toList ++ ['/'] ++ (Text.trim '/' relative).toList := by
      rw [hmore]
      simp [Text.trimEnd]
    rw [isPrefix_iff, htext, (Text.trimmed_trim '/' relative).dropEnd_append
      fun hnil => hne (String.toList_eq_nil_iff.1 hnil)]
    exact .inr (List.prefix_append _ _)

/-- **Behind a URL stands what was appended to it**, with slashes around it. -/
theorem exists_append_eq (base relative : String) :
    ∃ rest, append base relative = Text.trimEnd '/' base ++ rest ∧
      Text.trim '/' rest = Text.trim '/' relative := by
  have htrimmed := Text.trimmed_trim '/' relative
  rcases append_cases base relative with ⟨hempty, hsame⟩ | ⟨-, hmore⟩
  · obtain ⟨n, hslashes⟩ := Text.exists_dropEnd_append '/' base.toList
    refine ⟨String.ofList (List.replicate n '/'), ?_, ?_⟩
    · rw [hsame, Text.trimEnd, ← String.ofList_append, ← hslashes, String.ofList_toList]
    · rw [hempty] at htrimmed ⊢
      simpa using htrimmed.trim_replicate 0 n
  · refine ⟨_, hmore, ?_⟩
    have hslash := htrimmed.trim_replicate 1 0
    simpa [String.ofList_append] using hslash

/-- What is below a URL is what goes on behind it, without slashes at its ends. -/
theorem below_eq_trim {above url rest : String} (h : url = Text.trimEnd '/' above ++ rest) :
    below above url = Text.trim '/' rest := by
  rw [below, h, String.toList_append, List.drop_left, String.ofList_toList]

/-- What was appended is below. -/
theorem below_append (base relative : String) :
    below base (append base relative) = Text.trim '/' relative := by
  obtain ⟨rest, hrest, htrim⟩ := exists_append_eq base relative
  rw [below_eq_trim hrest, htrim]

/-- URLs are the same if they have the same segments. -/
theorem same_iff_segments {url url' : String} : Same url url' ↔ segments url = segments url' := by
  refine ⟨fun h => congrArg (Text.split '/') h, fun h => ?_⟩
  rw [Same, ← Text.join_split '/' (Text.trimEnd '/' url),
    ← Text.join_split '/' (Text.trimEnd '/' url')]
  exact congrArg (Text.join '/') h

/-- **To lie at or below is a matter of segments, and agrees with appending.** It is a preorder, in
which two URLs are alike if they name one place. Below every URL lies what is appended to it, and
what stands behind the URL is the appended text, but for slashes at the ends. -/
theorem isPrefix_and_append :
    (∀ above url, isPrefix above url ↔ segments above <+: segments url) ∧
      (∀ url, isPrefix url url) ∧
      (∀ top above url, isPrefix top above → isPrefix above url → isPrefix top url) ∧
      (∀ url url', isPrefix url url' ∧ isPrefix url' url ↔ Same url url') ∧
      ∀ base relative, isPrefix base (append base relative) ∧
        (∃ rest, append base relative = Text.trimEnd '/' base ++ rest ∧
          Text.trim '/' rest = Text.trim '/' relative) ∧
        below base (append base relative) = Text.trim '/' relative := by
  refine ⟨fun _ _ => isPrefix_iff_segments, isPrefix_self, fun top above url htop habove => ?_,
    fun url url' => ?_, fun base relative => ⟨isPrefix_append base relative,
      exists_append_eq base relative, below_append base relative⟩⟩
  · rw [isPrefix_iff_segments] at htop habove ⊢
    exact htop.trans habove
  · rw [isPrefix_iff_segments, isPrefix_iff_segments, same_iff_segments]
    constructor
    · rintro ⟨h, h'⟩
      exact h.eq_of_length (le_antisymm h.length_le h'.length_le)
    · intro heq
      rw [heq]
      exact ⟨List.prefix_rfl, List.prefix_rfl⟩

/-- Slashes at the ends do not count, but those in between do. -/
theorem isPrefix_and_append_slashes :
    isPrefix "http://h//" "http://h" ∧ isPrefix "http://h" "http://h//a" ∧
      isPrefix "http://h//" "http://h//a" ∧
      below "http://h/r/" (append "http://h/r/" "/a//b/") = Text.trim '/' "/a//b/" :=
  ⟨by decide +kernel, by decide +kernel,
    isPrefix_and_append.2.2.1 _ "http://h" _ (by decide +kernel) (by decide +kernel),
    (isPrefix_and_append.2.2.2.2 _ _).2.2⟩

end Url
end StatusCache
