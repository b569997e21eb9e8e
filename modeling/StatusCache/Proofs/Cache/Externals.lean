/-
# Wrappers are few, and found again

The wrappers of a location are only added to, and the first one that matches a URL is taken. So from
the first time on a URL is reached through the same location (`Externals.Settles`), whatever other
URLs are wrapped in between (`Settles.wrap`), until the wrappers of that location are dropped. A new
wrapper matches its own URL because that lies at the URL of the wrapper or below it
(`Url.isPrefix_beforeLast`).

The same makes wrappers few: a wrapper is rooted at the URL that it is made for or at its parent, and
since none of the older ones serves that URL, none is at or above the new one (`Externals.Minimal`).
Both hold after every sequence of calls (`minimal_and_settled`).
-/

import StatusCache.Cache.Externals
import StatusCache.Proofs.Table
import StatusCache.Proofs.Url

namespace StatusCache

namespace Externals

variable {x : Externals} {l l' w found : Location} {url url' id : String}

/-- The known wrapper through which a URL of a location is reached. -/
def wrapper? (x : Externals) (id url : String) : Option Location :=
  (x.wrappers id).find? fun w => Url.isPrefix w.url url || Url.isPrefix url w.url

/-- A URL is reached through a location, and no wrapper has to be made for that. -/
def Settles (x : Externals) (l : Location) (url : String) (found : Location) : Prop :=
  ∀ isFile, x.wrap l url isFile = (found, x)

/-- Every wrapper has the identifier of the location it was made for. -/
def Tidy (x : Externals) : Prop := ∀ id, ∀ w ∈ x.wrappers id, w.id = id

/-! ### What wrapping does -/

/-- The wrapper that is made for a URL. -/
def fresh (l : Location) (url : String) (isFile : Bool) : Location :=
  l.wrap (if isFile then Text.beforeLast '/' url else url)

/-- Wrapping takes the location itself, or a known wrapper, or makes one. -/
theorem wrap_cases (x : Externals) (l : Location) (url : String) (isFile : Bool) :
    (l.containsUrl url ∧ x.wrap l url isFile = (l, x)) ∨
    (¬l.containsUrl url ∧ ∃ w, x.wrapper? l.id url = some w ∧ x.wrap l url isFile = (w, x)) ∨
    (¬l.containsUrl url ∧ x.wrapper? l.id url = none ∧ x.wrap l url isFile =
      (fresh l url isFile, ⟨x.byId.insert l.id (x.wrappers l.id ++ [fresh l url isFile])⟩)) := by
  unfold wrap
  split
  next hcontains => exact .inl ⟨hcontains, rfl⟩
  next hforeign =>
    refine .inr ?_
    simp only
    split
    next w hw => exact .inl ⟨hforeign, w, hw, rfl⟩
    next hnone => exact .inr ⟨hforeign, hnone, rfl⟩

/-- Setting the wrappers of one location leaves those of the others. -/
theorem wrappers_insert (x : Externals) (id id' : String) (ws : List Location) :
    wrappers ⟨x.byId.insert id ws⟩ id' = if id = id' then ws else x.wrappers id' := by
  unfold wrappers
  rw [Table.get?_insert]
  split <;> rfl

/-- Forgetting a location leaves it without wrappers, and the others with theirs. -/
theorem wrappers_forget (x : Externals) (id id' : String) :
    (x.forget id).wrappers id' = if id' = id then [] else x.wrappers id' := by
  unfold wrappers forget
  rw [Table.get?_erase]
  split <;> rfl

/-- Wrappers are added behind the known ones. -/
theorem wrappers_wrap (x : Externals) (l : Location) (url : String) (isFile : Bool) (id : String) :
    x.wrappers id <+: (x.wrap l url isFile).2.wrappers id := by
  rcases wrap_cases x l url isFile with ⟨-, h⟩ | ⟨-, w, -, h⟩ | ⟨-, -, h⟩
  · rw [h]
  · rw [h]
  · rw [h, wrappers_insert]
    split
    next hid => exact hid ▸ List.prefix_append _ _
    · exact List.prefix_rfl

/-- A new wrapper matches the URL that it was made for. -/
theorem isPrefix_fresh (l : Location) (url : String) (isFile : Bool) :
    Url.isPrefix (fresh l url isFile).url url := by
  cases isFile with
  | true => exact Url.isPrefix_beforeLast url
  | false => exact Url.isPrefix_self url

/-! ### Settled URLs -/

/-- A location that contains a URL settles it by itself. -/
theorem settles_of_contains (h : l.containsUrl url) : Settles x l url l := fun isFile => by
  rw [wrap, if_pos h]

/-- A wrapper that is found settles a URL outside of its location. -/
theorem settles_of_wrapper? (h : ¬l.containsUrl url) (hw : x.wrapper? l.id url = some w) :
    Settles x l url w := fun isFile => by
  rcases wrap_cases x l url isFile with ⟨hcontains, -⟩ | ⟨-, w', hw', hwrap⟩ | ⟨-, hnone, -⟩
  · exact absurd hcontains h
  · obtain rfl := Option.some.inj (hw.symm.trans hw')
    exact hwrap
  · rw [hw] at hnone
    cases hnone

/-- What settles a URL is the location itself or a wrapper that is known. -/
theorem Settles.cases (h : Settles x l url found) :
    (l.containsUrl url ∧ found = l) ∨ (¬l.containsUrl url ∧ x.wrapper? l.id url = some found) := by
  have hfound := h true
  rcases wrap_cases x l url true with ⟨hcontains, hwrap⟩ | ⟨hforeign, w, hw, hwrap⟩ |
    ⟨-, hnone, hwrap⟩ <;> rw [hfound] at hwrap
  · exact .inl ⟨hcontains, congrArg Prod.fst hwrap⟩
  · exact .inr ⟨hforeign, hw.trans (congrArg (some ·.1) hwrap.symm)⟩
  · -- the list of wrappers would be as long as with one more
    have hlength := congrArg (fun x : Externals => (x.wrappers l.id).length) (congrArg Prod.snd hwrap)
    simp [wrappers_insert] at hlength

/-- **Wrapping settles a URL**: from then on it is reached through the same location. -/
theorem settles_wrap (x : Externals) (l : Location) (url : String) (isFile : Bool) :
    Settles (x.wrap l url isFile).2 l url (x.wrap l url isFile).1 := by
  rcases wrap_cases x l url isFile with ⟨hcontains, h⟩ | ⟨hforeign, w, hw, h⟩ |
    ⟨hforeign, hnone, h⟩ <;> rw [h]
  · exact settles_of_contains hcontains
  · exact settles_of_wrapper? hforeign hw
  · refine settles_of_wrapper? hforeign ?_
    rw [wrapper?, wrappers_insert, if_pos rfl, List.find?_append, ← wrapper?, hnone]
    simp [isPrefix_fresh]

/-- Where wrappers are only added behind the known ones, what is settled stays so. -/
theorem Settles.of_prefix {x' : Externals} (h : Settles x l url found)
    (hkept : x.wrappers l.id <+: x'.wrappers l.id) : Settles x' l url found := by
  rcases h.cases with ⟨hcontains, rfl⟩ | ⟨hforeign, hw⟩
  · exact settles_of_contains hcontains
  · obtain ⟨more, hmore⟩ := hkept
    refine settles_of_wrapper? hforeign ?_
    rw [wrapper?, ← hmore, List.find?_append, ← wrapper?, hw]
    rfl

/-- Wrapping any other URL leaves a settled one alone. -/
theorem Settles.wrap (h : Settles x l url found) (l' : Location) (url' : String) (isFile : Bool) :
    Settles (x.wrap l' url' isFile).2 l url found :=
  h.of_prefix (wrappers_wrap x l' url' isFile l.id)

/-- Dropping the wrappers of another location leaves a settled URL alone. -/
theorem Settles.forget (h : Settles x l url found) (hid : id ≠ l.id) :
    Settles (x.forget id) l url found :=
  h.of_prefix (by rw [wrappers_forget, if_neg hid.symm])

/-! ### Identifiers -/

/-- Wrapping keeps the wrappers tidy. -/
theorem Tidy.wrap (h : x.Tidy) (l : Location) (url : String) (isFile : Bool) :
    (x.wrap l url isFile).2.Tidy := by
  rcases wrap_cases x l url isFile with ⟨-, hwrap⟩ | ⟨-, w, -, hwrap⟩ | ⟨-, -, hwrap⟩ <;> rw [hwrap]
  · exact h
  · exact h
  · intro id w hw
    rw [wrappers_insert] at hw
    split at hw
    next hid =>
      rcases List.mem_append.1 hw with hw | hw
      · exact hid ▸ h l.id w hw
      · rw [List.mem_singleton.1 hw, ← hid]
        rfl
    · exact h id w hw

/-- Forgetting a location keeps the wrappers tidy. -/
theorem Tidy.forget (h : x.Tidy) (id : String) : (x.forget id).Tidy := by
  intro id' w hw
  rw [wrappers_forget] at hw
  split at hw
  · cases hw
  · exact h id' w hw

/-- A URL is reached through a location of the same identifier. -/
theorem Tidy.id_eq (h : x.Tidy) (hfound : Settles x l url found) : found.id = l.id := by
  rcases hfound.cases with ⟨-, rfl⟩ | ⟨-, hw⟩
  · rfl
  · exact h l.id found (List.mem_of_find?_eq_some hw)

/-! ### Wrappers are few -/

/-- A location contains the URLs that go on from its base, if it has one. -/
theorem containsUrl_iff :
    l.containsUrl url ↔ l.base ≠ "" ∧ Url.segments l.base <+: Url.segments url := by
  simp [Location.containsUrl, Url.isPrefix_iff_segments]

/-- A wrapper serves the URLs above and below its own. -/
def Serves (w : Location) (url : String) : Prop :=
  Url.segments w.url <+: Url.segments url ∨ Url.segments url <+: Url.segments w.url

instance (w : Location) (url : String) : Decidable (Serves w url) :=
  inferInstanceAs (Decidable (_ ∨ _))

/-- A wrapper that is found is one of the location, and serves the URL. -/
theorem serves_of_wrapper? (h : x.wrapper? id url = some w) : w ∈ x.wrappers id ∧ Serves w url := by
  refine ⟨List.mem_of_find?_eq_some h, ?_⟩
  have hserves := List.find?_some h
  rwa [Bool.or_eq_true, Url.isPrefix_iff_segments, Url.isPrefix_iff_segments] at hserves

/-- A URL that no wrapper serves lies below none of them. -/
theorem not_prefix_of_wrapper?_none (h : x.wrapper? id url = none) (hw : w ∈ x.wrappers id) :
    ¬Url.segments w.url <+: Url.segments url := by
  have hnone := List.find?_eq_none.1 h w hw
  rw [Bool.or_eq_true, not_or, Url.isPrefix_iff_segments] at hnone
  exact hnone.1

/-- The wrappers of every location are its own and around foreign URLs, and none of them lies at or
below an older one. -/
structure Minimal (x : Externals) : Prop where
  own : x.Tidy
  foreign : ∀ id, ∀ w ∈ x.wrappers id, w.wrapped = true ∧ w.root = w.url
  apart : ∀ id, (x.wrappers id).Pairwise fun older w =>
    ¬Url.segments older.url <+: Url.segments w.url

/-- Without wrappers there is none too many. -/
theorem minimal_empty : Minimal {} where
  own _ _ hw := nomatch hw
  foreign _ _ hw := nomatch hw
  apart _ := List.Pairwise.nil

/-- A URL is wrapped only if no wrapper serves it. What is wrapped lies at the URL or above it, so
that it is not below an older wrapper either. -/
theorem Minimal.wrap (h : x.Minimal) (l : Location) (url : String) (isFile : Bool) :
    (x.wrap l url isFile).2.Minimal := by
  refine ⟨h.own.wrap l url isFile, ?_, ?_⟩ <;>
    rcases wrap_cases x l url isFile with ⟨-, hwrap⟩ | ⟨-, w, -, hwrap⟩ | ⟨-, hnone, hwrap⟩ <;>
      rw [hwrap]
  · exact h.foreign
  · exact h.foreign
  · intro id w hw
    rw [wrappers_insert] at hw
    split at hw
    · rcases List.mem_append.1 hw with hw | hw
      · exact h.foreign l.id w hw
      · rw [List.mem_singleton.1 hw]
        exact ⟨rfl, rfl⟩
    · exact h.foreign id w hw
  · exact h.apart
  · exact h.apart
  · intro id
    rw [wrappers_insert]
    split
    · refine List.pairwise_append.2 ⟨h.apart l.id, List.pairwise_singleton _ _, ?_⟩
      intro older holder w hw habove
      rw [List.mem_singleton.1 hw] at habove
      have hurl := Url.isPrefix_iff_segments.1 (isPrefix_fresh l url isFile)
      exact not_prefix_of_wrapper?_none hnone holder (habove.trans hurl)
    · exact h.apart id

/-- Forgetting a location makes no wrapper superfluous. -/
theorem Minimal.forget (h : x.Minimal) (id : String) : (x.forget id).Minimal := by
  refine ⟨h.own.forget id, fun id' w hw => ?_, fun id' => ?_⟩
  · rw [wrappers_forget] at hw
    split at hw
    · cases hw
    · exact h.foreign id' w hw
  · rw [wrappers_forget]
    split
    · exact List.Pairwise.nil
    · exact h.apart id'

/-! ### Sequences of calls -/

/-- What the index is asked for. -/
inductive Call
  | wrap (l : Location) (url : String) (isFile : Bool)
  | forget (id : String)
deriving DecidableEq

/-- The index after a call. -/
def after (x : Externals) : Call → Externals
  | .wrap l url isFile => (x.wrap l url isFile).2
  | .forget id => x.forget id

/-- The index after some calls. -/
def run (x : Externals) (calls : List Call) : Externals := calls.foldl after x

/-- After any calls there is no wrapper too many. -/
theorem Minimal.run (h : x.Minimal) (calls : List Call) : (x.run calls).Minimal := by
  induction calls generalizing x with
  | nil => exact h
  | cons call calls ih =>
    refine ih ?_
    cases call with
    | wrap l url isFile => exact h.wrap l url isFile
    | forget id => exact h.forget id

/-- A settled URL stays so until the wrappers of its location are dropped. -/
theorem Settles.run {calls : List Call} (h : Settles x l url found)
    (hkept : Call.forget l.id ∉ calls) : Settles (x.run calls) l url found := by
  induction calls generalizing x with
  | nil => exact h
  | cons call calls ih =>
    rw [List.mem_cons, not_or] at hkept
    refine ih ?_ hkept.2
    cases call with
    | wrap l' url' isFile => exact h.wrap l' url' isFile
    | forget id => exact h.forget fun hid => hkept.1 (hid ▸ rfl)

/-- **The index stays minimal and its answers stand.** After any calls, the wrappers of a location
are its own, around foreign URLs, and none lies at or below an older one. A URL is reached through
the location that is asked, which contains it, or through a wrapper that is known from then on and
serves it; and whatever is called afterwards, unless it drops the wrappers of that location, the same
is answered again, and nothing is added. -/
theorem minimal_and_settled (calls : List Call) (l : Location) (url : String) (isFile : Bool) :
    let answer := (run {} calls).wrap l url isFile
    (run {} calls).Minimal ∧
      (answer.1 = l ∧ l.base ≠ "" ∧ Url.segments l.base <+: Url.segments url ∨
        answer.1 ∈ answer.2.wrappers l.id ∧ Serves answer.1 url) ∧
      ∀ later, Call.forget l.id ∉ later → ∀ isFile',
        (answer.2.run later).wrap l url isFile' = (answer.1, answer.2.run later) := by
  intro answer
  have hsettles : Settles answer.2 l url answer.1 := settles_wrap (run {} calls) l url isFile
  refine ⟨minimal_empty.run calls, ?_, fun later hlater isFile' => hsettles.run hlater isFile'⟩
  rcases hsettles.cases with ⟨hcontains, hfound⟩ | ⟨-, hw⟩
  · exact .inl ⟨hfound, containsUrl_iff.1 hcontains⟩
  · exact .inr (serves_of_wrapper? hw)

/-- A file is wrapped at its parent, through which a folder beside it is reached, also when other
URLs have been wrapped in between and other wrappers dropped. -/
theorem minimal_and_settled_file :
    let main : Location := { id := "main", url := "http://h/r/trunk", root := "http://h/r" }
    let before : List Call := [.wrap main "http://e/dir/file.txt" true, .forget "other"]
    let later : List Call :=
      [.wrap main "http://e/lib" false, .forget "other", .wrap main "http://e/dir/a/b" true]
    let answer := (run {} before).wrap main "http://e/dir/a/" false
    Call.forget main.id ∉ later ∧
      answer.1 = { id := "main", url := "http://e/dir", root := "http://e/dir", wrapped := true } ∧
      (answer.2.run later).wrap main "http://e/dir/a/" true = (answer.1, answer.2.run later) := by
  intro main before later answer
  have hkept : Call.forget main.id ∉ later := by decide
  refine ⟨hkept, ?_, (minimal_and_settled before main "http://e/dir/a/" false).2.2 later hkept true⟩
  unfold answer before main
  decide +kernel

end Externals
end StatusCache
