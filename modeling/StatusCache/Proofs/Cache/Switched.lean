/-
# Searches in the index of switched subtrees

Both searches of the index are for what is longest. Up from a place, the first container with a URL is
the one with the most segments, and the URL of the place goes on with the segments in between
(`resolve?_eq_some_iff`). Around a URL, the longest of the indexed ones is taken (`around?_longest`),
and its path goes on with what is left of the URL. That is cut off between two characters of the URL,
where the indexed one ends without its slashes (`exists_pos_of_isPrefix`).
-/

import Mathlib
import StatusCache.Cache.Switched
import StatusCache.Proofs.Url

namespace StatusCache

/-- The path of the place with the given segments. -/
def Resource.pathOf (segments : List String) : String := "/" ++ Text.join '/' segments

namespace Url

variable {r p : Resource} {below : List String} {above url other rest : String}

/-- A URL with segments behind it; where there are none, the URL as it is written. -/
def extended (url : String) : List String → String
  | [] => url
  | name :: below => Text.trimEnd '/' url ++ "/" ++ Text.join '/' (name :: below)

/-- Appending joined segments extends a URL by them. -/
theorem append_join_eq_extended (url : String) (h : ∀ s ∈ below, Text.Segment '/' s) :
    append url (Text.join '/' below) = extended url below := by
  cases below with
  | nil => exact append_empty url
  | cons name below => exact append_join url h (List.cons_ne_nil _ _)

/-- Appending one more name extends a URL by that too. -/
theorem append_extended {name : String} (url : String)
    (h : ∀ s ∈ below ++ [name], Text.Segment '/' s) :
    append (extended url below) name = extended url (below ++ [name]) := by
  have hbelow : ∀ s ∈ below, Text.Segment '/' s := fun s hs => h s (List.mem_append_left _ hs)
  have hname : ∀ s ∈ [name], Text.Segment '/' s := fun s hs => h s (List.mem_append_right _ hs)
  rw [← append_join_eq_extended url h, ← append_append url hbelow hname,
    append_join_eq_extended url hbelow, Text.join_singleton]

/-- What is below a container by a path is below its parent by a segment more. -/
theorem append_relativeTo?_of_parent? {a : Resource} (url : String) (hr : r.WellFormed)
    (hplain : ∀ s ∈ r.segments, '/' ∉ s.toList) (hp : r.parent? = some p) (ha : a ∈ p.lineage) :
    (r.relativeTo? a).map (append url) =
      (p.relativeTo? a).map fun relative => append (append url relative) r.name := by
  obtain ⟨below, hbelow⟩ := (hr.parent hp).exists_split ha
  have hsegments : r.segments = a.segments ++ (below ++ [r.name]) := by
    rw [hr.segments_of_parent? hp, hbelow, List.append_assoc]
  have hsegment : ∀ s ∈ below ++ [r.name], Text.Segment '/' s := fun s hs => by
    have hmem : s ∈ r.segments := by rw [hsegments]; exact List.mem_append_right _ hs
    exact ⟨hr.names s hmem, hplain s hmem⟩
  rw [hr.relativeTo?_eq ((Resource.mem_lineage_of_parent? hp).2 (.inr ha)) hsegments,
    (hr.parent hp).relativeTo?_eq ha hbelow, Option.map_some, Option.map_some, ← append_append url
    (fun s hs => hsegment s (List.mem_append_left _ hs))
    (fun s hs => hsegment s (List.mem_append_right _ hs)), Text.join_singleton]

/-! ### What is left of a URL -/

/-- Where a text goes on behind another, it can be cut between two characters. -/
theorem exists_pos_of_append {text front back : String} (h : text = front ++ back) :
    ∃ pos : text.Pos, pos.offset.byteIdx = front.utf8ByteSize ∧
      (text.sliceTo pos).copy = front ∧ (text.sliceFrom pos).copy = back := by
  have hvalid : front.rawEndPos.IsValid text :=
    String.Pos.Raw.isValid_iff_exists_append.2 ⟨front, back, h, rfl⟩
  have hsplits : (text.pos front.rawEndPos hvalid).Splits front back := ⟨h, rfl⟩
  exact ⟨_, rfl, hsplits.copy_sliceTo_eq, hsplits.copy_sliceFrom_eq⟩

/-- A URL begins with every URL around it, without the slashes at the end of that. -/
theorem exists_eq_append_of_isPrefix (h : isPrefix above url) :
    ∃ rest, url = Text.trimEnd '/' above ++ rest := by
  obtain ⟨n, hurl⟩ := Text.exists_dropEnd_append '/' url.toList
  have hfront : Text.dropEnd '/' above.toList <+: url.toList := by
    refine List.IsPrefix.trans ?_ ⟨_, hurl.symm⟩
    rcases isPrefix_iff.1 h with hsame | hbelow
    · rw [hsame]
    · exact (List.prefix_append _ _).trans hbelow
  obtain ⟨rest, hrest⟩ := hfront
  exact ⟨String.ofList rest, String.toList_inj.1 (by simp [Text.trimEnd, hrest])⟩

/-- **Below a URL around it, a URL is cut between two characters** and within its bounds. In front of
the cut is the URL around it, without the slashes at the end of that. -/
theorem exists_pos_of_isPrefix (h : isPrefix above url) :
    ∃ pos : url.Pos, pos.offset.byteIdx = min (Text.trimEnd '/' above).utf8ByteSize url.utf8ByteSize ∧
      (url.sliceTo pos).copy = Text.trimEnd '/' above ∧
      Url.below above url = Text.trim '/' (url.sliceFrom pos).copy := by
  obtain ⟨rest, hrest⟩ := exists_eq_append_of_isPrefix h
  obtain ⟨pos, hpos, hfront, hback⟩ := exists_pos_of_append hrest
  have hsize : (Text.trimEnd '/' above).utf8ByteSize ≤ url.utf8ByteSize := by
    rw [congrArg String.utf8ByteSize hrest, String.utf8ByteSize_append]
    exact Nat.le_add_right _ _
  refine ⟨pos, by rw [hpos, Nat.min_eq_left hsize], hfront, ?_⟩
  rw [hback, below_eq_trim hrest]

/-- Of two URLs around one, the longer is the nearer, unless the slashes at its end make it the
longer one. -/
theorem segments_prefix_of_size_le (habove : segments above <+: segments url)
    (hother : segments other <+: segments url) (hsize : other.utf8ByteSize ≤ above.utf8ByteSize)
    (htrim : Text.trimEnd '/' above = above) : segments other <+: segments above := by
  rcases List.prefix_or_prefix_of_prefix hother habove with hle | hle
  · exact hle
  · rw [← isPrefix_iff_segments] at hle ⊢
    obtain ⟨rest, hrest⟩ := exists_eq_append_of_isPrefix hle
    rw [htrim] at hrest
    have hnil : rest = "" := by
      rw [← String.utf8ByteSize_eq_zero_iff]
      rw [congrArg String.utf8ByteSize hrest, String.utf8ByteSize_append] at hsize
      omega
    rw [hrest, hnil, String.append_empty]
    exact isPrefix_self above

end Url

namespace Switched

variable {x : Switched} {r p : Resource} {above below : List String} {url answer : String}

/-! ### Up from a place -/

/-- The URL of a resource is told by the first resource of its lineage that has one. -/
theorem resolve?_eq (x : Switched) (r : Resource) :
    x.resolve? r = (r.lineage.find? fun a => (x.get? a).isSome).bind fun a =>
      (x.get? a).bind fun url => (r.relativeTo? a).map (Url.append url) := by
  unfold resolve?
  rw [Resource.lineage]
  cases hself : x.get? r with
  | some url =>
    have hempty : r.relativeTo? r = some "" := if_pos rfl
    rw [List.find?_cons_of_pos (by simp [hself])]
    simp [hself, hempty, Url.append_empty]
  | none =>
    rw [List.find?_cons_of_neg (by simp [hself])]
    cases r.ancestors.find? fun a => (x.get? a).isSome with
    | none => rfl
    | some a =>
      cases hurl : x.get? a <;> cases hrelative : r.relativeTo? a <;> simp [hurl, hrelative]

/-- Below a URL of the index, URLs follow the hierarchy. -/
theorem resolve?_of_parent? (hr : r.WellFormed) (hplain : ∀ s ∈ r.segments, '/' ∉ s.toList)
    (hp : r.parent? = some p) (hown : x.get? r = none) :
    x.resolve? r = (x.resolve? p).map fun url => Url.append url r.name := by
  have hlineage : r.lineage = r :: p.lineage := by
    rw [Resource.lineage, Resource.ancestors_of_parent? hp, Resource.lineage]
  rw [resolve?_eq, resolve?_eq, hlineage, List.find?_cons_of_neg (by simp [hown])]
  cases hfound : p.lineage.find? fun a => (x.get? a).isSome with
  | none => rfl
  | some a =>
    cases hurl : x.get? a with
    | none => simp [hurl]
    | some url =>
      have hfollows := Url.append_relativeTo?_of_parent? url hr hplain hp
        (List.mem_of_find?_eq_some hfound)
      simp only [Option.bind_some, hurl, hfollows, Option.map_map]
      rfl

/-- A resource with a URL of its own is resolved to that. -/
theorem resolve?_of_get? (h : x.get? r = some url) : x.resolve? r = some url := by
  rw [resolve?, h]

/-- The longest key at or above a place: the path of the first of its segments, where no longer
beginning of them is the path of a key. -/
structure Nearest (x : Switched) (r : Resource) (above below : List String) (url : String) :
    Prop where
  split : r.segments = above ++ below
  key : x.urls.get? (Resource.pathOf above) = some url
  longest : ∀ longer, longer <+: r.segments → above.length < longer.length →
    x.urls.get? (Resource.pathOf longer) = none

/-- A key of its own is the longest one. -/
theorem nearest_iff_of_get? {own : String} (h : x.get? r = some own) :
    x.Nearest r above below url ↔ above = r.segments ∧ below = [] ∧ url = own := by
  constructor
  · rintro ⟨hsplit, hkey, hlongest⟩
    cases below with
    | nil =>
      rw [List.append_nil] at hsplit
      subst hsplit
      exact ⟨rfl, rfl, Option.some.inj (hkey.symm.trans h)⟩
    | cons name below =>
      have hnone := hlongest r.segments List.prefix_rfl (by simp [hsplit])
      rw [show x.urls.get? (Resource.pathOf r.segments) = some own from h] at hnone
      cases hnone
  · rintro ⟨rfl, rfl, rfl⟩
    exact ⟨(List.append_nil _).symm, h, fun longer hprefix hlt =>
      absurd hprefix.length_le (Nat.not_le.2 hlt)⟩

/-- Without a key of its own, a place has the longest key of its parent. -/
theorem nearest_iff_of_parent? (hr : r.WellFormed) (hp : r.parent? = some p)
    (hown : x.get? r = none) : x.Nearest r above below url ↔
      ∃ between, below = between ++ [r.name] ∧ x.Nearest p above between url := by
  have hsegments := hr.segments_of_parent? hp
  constructor
  · rintro ⟨hsplit, hkey, hlongest⟩
    rcases List.eq_nil_or_concat below with rfl | ⟨between, name, rfl⟩
    · rw [List.append_nil] at hsplit
      rw [← hsplit] at hkey
      exact absurd (hkey.symm.trans hown) (by simp)
    · rw [hsegments, List.concat_eq_append, ← List.append_assoc] at hsplit
      obtain ⟨hp', hname⟩ := List.append_inj' hsplit rfl
      refine ⟨between, by simp [(List.cons.inj hname).1], hp', hkey, fun longer hlonger hlt => ?_⟩
      exact hlongest longer (hlonger.trans (by rw [hsegments]; exact List.prefix_append _ _)) hlt
  · rintro ⟨between, rfl, hsplit, hkey, hlongest⟩
    refine ⟨by rw [hsegments, hsplit, List.append_assoc], hkey, fun longer hlonger hlt => ?_⟩
    rw [hsegments, List.prefix_concat_iff, ← hsegments] at hlonger
    rcases hlonger with rfl | hlonger
    · exact hown
    · exact hlongest longer hlonger hlt

/-- The root has nothing above it. -/
theorem nearest_iff_of_root (hr : r.WellFormed) (hp : r.parent? = none) (hown : x.get? r = none) :
    ¬x.Nearest r above below url := by
  rintro ⟨hsplit, hkey, -⟩
  rw [hr.kind_eq_root.1 (Resource.parent?_eq_none.1 hp)] at hsplit
  obtain ⟨rfl, -⟩ := List.append_eq_nil_iff.1 hsplit.symm
  have hroot : r.path = Resource.pathOf [] := by
    rw [Resource.path, hr.kind_eq_root.1 (Resource.parent?_eq_none.1 hp)]
    rfl
  rw [get?, hroot, hkey] at hown
  cases hown

/-- **The URL of a place is that of the longest key at or above it**, with the segments behind it that
are left. -/
theorem resolve?_eq_some_iff (hr : r.WellFormed) (hplain : ∀ s ∈ r.segments, '/' ∉ s.toList) :
    x.resolve? r = some answer ↔
      ∃ above below url, x.Nearest r above below url ∧ answer = Url.extended url below := by
  -- Up the hierarchy: the own key, or that of the parent with one more segment.
  induction r using Resource.parent_induction generalizing answer with
  | step r ih =>
    cases hown : x.get? r with
    | some own =>
      simp only [resolve?_of_get? hown, nearest_iff_of_get? hown, Option.some.injEq]
      constructor
      · rintro rfl
        exact ⟨_, _, _, ⟨rfl, rfl, rfl⟩, rfl⟩
      · rintro ⟨_, _, _, ⟨rfl, rfl, rfl⟩, rfl⟩
        rfl
    | none =>
      cases hp : r.parent? with
      | none =>
        have hnone : x.resolve? r = none := by
          rw [resolve?, hown, Resource.ancestors_of_parent?_none hp]
          rfl
        simp [hnone, nearest_iff_of_root hr hp hown]
      | some p =>
        have hsegments := hr.segments_of_parent? hp
        have hplain' : ∀ s ∈ p.segments, '/' ∉ s.toList := fun s hs =>
          hplain s (by rw [hsegments]; exact List.mem_append_left _ hs)
        have happend : ∀ {above between url}, x.Nearest p above between url →
            Url.append (Url.extended url between) r.name =
              Url.extended url (between ++ [r.name]) := fun hnearest => by
          refine Url.append_extended _ fun s hs => ?_
          have hmem : s ∈ r.segments := by
            rw [hsegments, hnearest.split, List.append_assoc]
            exact List.mem_append_right _ hs
          exact ⟨hr.names s hmem, hplain s hmem⟩
        rw [resolve?_of_parent? hr hplain hp hown, Option.map_eq_some_iff]
        simp only [ih p hp (hr.parent hp) hplain', nearest_iff_of_parent? hr hp hown]
        constructor
        · rintro ⟨_, ⟨above, between, url, hnearest, rfl⟩, rfl⟩
          exact ⟨above, _, url, ⟨between, rfl, hnearest⟩, happend hnearest⟩
        · rintro ⟨above, _, url, ⟨between, rfl, hnearest⟩, rfl⟩
          exact ⟨_, ⟨above, between, url, hnearest, rfl⟩, happend hnearest⟩

/-- Where there is a key at or above a place, there is a longest one. -/
theorem exists_nearest (h : above <+: r.segments)
    (hkey : x.urls.get? (Resource.pathOf above) = some url) :
    ∃ above below url, x.Nearest r above below url := by
  induction hn : r.segments.length - above.length using Nat.strong_induction_on
    generalizing above url with
  | _ n ih =>
    by_cases hlongest : ∀ longer, longer <+: r.segments → above.length < longer.length →
        x.urls.get? (Resource.pathOf longer) = none
    · obtain ⟨below, hbelow⟩ := h
      exact ⟨above, below, url, hbelow.symm, hkey, hlongest⟩
    · push Not at hlongest
      obtain ⟨longer, hprefix, hlt, hsome⟩ := hlongest
      obtain ⟨url', hurl'⟩ := Option.ne_none_iff_exists'.1 hsome
      have := hprefix.length_le
      exact ih _ (by omega) hprefix hurl' rfl

/-- A resource is not resolved if nothing on the way to it has a URL. -/
theorem resolve?_eq_none_iff (hr : r.WellFormed) (hplain : ∀ s ∈ r.segments, '/' ∉ s.toList) :
    x.resolve? r = none ↔
      ∀ above, above <+: r.segments → x.urls.get? (Resource.pathOf above) = none := by
  rw [Option.eq_none_iff_forall_ne_some]
  simp only [ne_eq, resolve?_eq_some_iff hr hplain]
  constructor
  · intro hnone above habove
    rw [Option.eq_none_iff_forall_ne_some]
    intro url hkey
    obtain ⟨above, below, url, hnearest⟩ := exists_nearest habove hkey
    exact hnone _ ⟨above, below, url, hnearest, rfl⟩
  · rintro hnone answer ⟨above, below, url, hnearest, -⟩
    have hkey := hnone above (hnearest.split ▸ List.prefix_append _ _)
    rw [hnearest.key] at hkey
    cases hkey

/-! ### Around a URL -/

/-- The entry of the index around a URL: the one with the longest URL, and the last path. -/
def around? (x : Switched) (url : String) : Option (String × String) :=
  ((x.urls.entries.filter fun (_, switched) => Url.isPrefix switched url).mergeSort
    fun (p, _) (q, _) => (compare p q).isLE).foldl
    (fun best e =>
      match best with
      | some b => if b.2.utf8ByteSize ≤ e.2.utf8ByteSize then some e else some b
      | none => some e)
    none

/-- The path for a URL is the key around it, and what is below that. -/
theorem localPath?_eq (x : Switched) (url : String) : x.localPath? url =
    (x.around? url).map fun (path, switched) =>
      if Url.below switched url = "" then path else path ++ "/" ++ Url.below switched url := rfl

/-- Going through some entries and always keeping the longer URL ends with a longest one. -/
theorem foldl_longest (entries : List (String × String)) (best : String × String) :
    ∃ found, entries.foldl (fun (best : Option (String × String)) e =>
        match best with
        | some b => if b.2.utf8ByteSize ≤ e.2.utf8ByteSize then some e else some b
        | none => some e) (some best) = some found ∧ found ∈ best :: entries ∧
      ∀ e ∈ best :: entries, e.2.utf8ByteSize ≤ found.2.utf8ByteSize := by
  induction entries generalizing best with
  | nil => exact ⟨best, rfl, List.mem_cons_self, by simp⟩
  | cons e entries ih =>
    rw [List.foldl_cons]
    simp only
    split
    next hle =>
      obtain ⟨found, hfound, hmem, hlongest⟩ := ih e
      have he := hlongest e List.mem_cons_self
      refine ⟨found, hfound, List.mem_cons_of_mem _ hmem, List.forall_mem_cons.2 ⟨?_, hlongest⟩⟩
      exact hle.trans he
    next hlt =>
      obtain ⟨found, hfound, hmem, hlongest⟩ := ih best
      have hbest := hlongest best List.mem_cons_self
      refine ⟨found, hfound, ?_, ?_⟩
      · rcases List.mem_cons.1 hmem with rfl | hmem
        · exact List.mem_cons_self
        · exact List.mem_cons_of_mem _ (List.mem_cons_of_mem _ hmem)
      · intro e' he'
        simp only [List.mem_cons] at he' hlongest
        rcases he' with rfl | rfl | he'
        · exact hbest
        · exact (Nat.le_of_not_le hlt).trans hbest
        · exact hlongest e' (.inr he')

/-- The entry around a URL is one with a longest indexed URL around it; there is none if no indexed
URL is around it. -/
theorem around?_longest (x : Switched) (url : String) :
    match x.around? url with
    | none => ∀ e ∈ x.urls.entries, ¬Url.isPrefix e.2 url
    | some found => found ∈ x.urls.entries ∧ Url.isPrefix found.2 url ∧
        ∀ e ∈ x.urls.entries, Url.isPrefix e.2 url → e.2.utf8ByteSize ≤ found.2.utf8ByteSize := by
  have hmem : ∀ e, e ∈ (x.urls.entries.filter fun (_, switched) =>
      Url.isPrefix switched url).mergeSort (fun (p, _) (q, _) => (compare p q).isLE) ↔
        e ∈ x.urls.entries ∧ Url.isPrefix e.2 url := fun e =>
    List.mem_mergeSort.trans List.mem_filter
  unfold around?
  generalize (x.urls.entries.filter fun (_, switched) => Url.isPrefix switched url).mergeSort
    (fun (p, _) (q, _) => (compare p q).isLE) = around at hmem
  cases around with
  | nil => exact fun e he hprefix => absurd ((hmem e).2 ⟨he, hprefix⟩) List.not_mem_nil
  | cons first around =>
    obtain ⟨found, hfound, hin, hlongest⟩ := foldl_longest around first
    rw [List.foldl_cons]
    simp only [hfound]
    obtain ⟨hentry, hprefix⟩ := (hmem found).1 hin
    exact ⟨hentry, hprefix, fun e he hurl => hlongest e ((hmem e).2 ⟨he, hurl⟩)⟩

/-- Where no entry is around a URL, none lies above it. -/
theorem not_isPrefix_of_around? (hnone : x.around? url = none) {e : String × String}
    (he : e ∈ x.urls.entries) : ¬Url.isPrefix e.2 url := by
  have hlongest := x.around?_longest url
  rw [hnone] at hlongest
  exact hlongest e he

/-- A URL of a resource stands in the index under its path. -/
theorem mem_entries_of_get? {r : Resource} (h : x.get? r = some url) :
    (r.path, url) ∈ x.urls.entries := by
  obtain ⟨e, hfind, rfl⟩ := Option.map_eq_some_iff.1 h
  have hpath : e.1 = r.path := by simpa using List.find?_some hfind
  rw [← hpath]
  exact List.mem_of_find?_eq_some hfind

/-- An entry whose URL is around a URL, such that no other indexed URL around it is longer. -/
structure Longest (x : Switched) (url key switched : String) : Prop where
  entry : (key, switched) ∈ x.urls.entries
  around : Url.segments switched <+: Url.segments url
  longest : ∀ e ∈ x.urls.entries, Url.segments e.2 <+: Url.segments url →
    e.2.utf8ByteSize ≤ switched.utf8ByteSize

/-- There is no path for a URL if no entry of the index is above it. -/
theorem localPath?_eq_none_iff : x.localPath? url = none ↔
    ∀ e ∈ x.urls.entries, ¬Url.segments e.2 <+: Url.segments url := by
  simp only [← Url.isPrefix_iff_segments]
  rw [localPath?_eq, Option.map_eq_none_iff]
  refine ⟨fun hnone e he => not_isPrefix_of_around? hnone he, fun hnone => ?_⟩
  have hlongest := x.around?_longest url
  cases hfound : x.around? url with
  | none => rfl
  | some found =>
    rw [hfound] at hlongest
    exact absurd hlongest.2.1 (hnone found hlongest.1)

/-- The path for a URL comes from the longest entry above it. -/
theorem exists_longest_of_localPath? {path : String} (h : x.localPath? url = some path) :
    ∃ key switched, x.Longest url key switched ∧ path =
      if Url.below switched url = "" then key else key ++ "/" ++ Url.below switched url := by
  rw [localPath?_eq, Option.map_eq_some_iff] at h
  obtain ⟨⟨key, switched⟩, hfound, rfl⟩ := h
  have hlongest := x.around?_longest url
  rw [hfound] at hlongest
  simp only [Url.isPrefix_iff_segments] at hlongest
  exact ⟨key, switched, ⟨hlongest.1, hlongest.2.1, hlongest.2.2⟩, rfl⟩

/-- **Both searches of the index are for the longest key.** A place has a URL if its path, or that
of a container above it, is a key: that of the longest such key, with the remaining segments behind
it, so that a place without a key of its own has the URL of its parent with its name behind it.

A URL has a path if an indexed URL begins it, segment by segment: that of an entry with a longest such
URL, with the rest behind it. No indexed URL around it is nearer, unless the slashes at the end of the
longest one made it the longest. The rest is cut off between two characters of the URL. -/
theorem searches_longest (x : Switched) :
    (∀ r : Resource, r.WellFormed → (∀ s ∈ r.segments, '/' ∉ s.toList) →
      (x.resolve? r = none ↔
        ∀ above, above <+: r.segments → x.urls.get? (Resource.pathOf above) = none) ∧
      (∀ answer, x.resolve? r = some answer ↔
        ∃ above below url, x.Nearest r above below url ∧ answer = Url.extended url below) ∧
      ∀ p, r.parent? = some p → x.get? r = none →
        x.resolve? r = (x.resolve? p).map fun url => Url.append url r.name) ∧
    ∀ url,
      (x.localPath? url = none ↔
        ∀ e ∈ x.urls.entries, ¬Url.segments e.2 <+: Url.segments url) ∧
      ∀ path, x.localPath? url = some path → ∃ key switched, x.Longest url key switched ∧
        (Text.trimEnd '/' switched = switched → ∀ e ∈ x.urls.entries,
          Url.segments e.2 <+: Url.segments url → Url.segments e.2 <+: Url.segments switched) ∧
        ∃ pos : url.Pos,
          pos.offset.byteIdx = min (Text.trimEnd '/' switched).utf8ByteSize url.utf8ByteSize ∧
          (url.sliceTo pos).copy = Text.trimEnd '/' switched ∧
          path = (let rest := Text.trim '/' (url.sliceFrom pos).copy
            if rest = "" then key else key ++ "/" ++ rest) := by
  refine ⟨fun r hr hplain => ⟨resolve?_eq_none_iff hr hplain, fun answer =>
    resolve?_eq_some_iff hr hplain, fun p hp hown => resolve?_of_parent? hr hplain hp hown⟩,
    fun url => ⟨localPath?_eq_none_iff, fun path hpath => ?_⟩⟩
  obtain ⟨key, switched, hlongest, hbelow⟩ := exists_longest_of_localPath? hpath
  obtain ⟨pos, hoffset, hfront, hback⟩ :=
    Url.exists_pos_of_isPrefix (Url.isPrefix_iff_segments.2 hlongest.around)
  refine ⟨key, switched, hlongest, fun htrim e he haround => ?_, pos, hoffset, hfront, ?_⟩
  · exact Url.segments_prefix_of_size_le hlongest.around haround (hlongest.longest e he haround) htrim
  · rw [hbelow, hback]

/-- Between nested entries, up from a place and around a URL. -/
theorem searches_longest_nested :
    let x : Switched :=
      ⟨⟨[("/", "http://h"), ("/p/a", "http://h/r/x/"), ("/p/a/b", "http://h/r/x/y")]⟩⟩
    let r := Resource.file "/p/a/b/c/f"
    let url := "http://h/r/x/y/é//f/"
    r.WellFormed ∧ (∀ s ∈ r.segments, '/' ∉ s.toList) ∧
      x.resolve? r = some "http://h/r/x/y/c/f" ∧
      x.localPath? url = some "/p/a/b/é//f" ∧ ∃ key switched, x.Longest url key switched := by
  intro x r url
  have hr : r.WellFormed := (Resource.Built.path _ _).wellFormed
  have hplain : ∀ s ∈ r.segments, '/' ∉ s.toList := by decide +kernel
  have hnearest : x.Nearest r ["p", "a", "b"] ["c", "f"] "http://h/r/x/y" := by
    refine ⟨by decide +kernel, by decide +kernel, ?_⟩
    simp only [← List.mem_inits]
    decide +kernel
  have hlocal : x.localPath? url = some "/p/a/b/é//f" := by cbv
  obtain ⟨key, switched, hlongest, -⟩ := ((searches_longest x).2 url).2 _ hlocal
  refine ⟨hr, hplain, (((searches_longest x).1 r hr hplain).2.1 _).2 ⟨_, _, _, hnearest, ?_⟩, hlocal,
    key, switched, hlongest⟩
  decide +kernel

end Switched
end StatusCache
