/-
# Flags and URLs of switched resources

A switched resource is told in two ways: its record carries a flag, and the index has a URL for its
path. Lookups write the two together, except that a plain record inherits the flag from the
container above, and that files and folders of one path share a URL. Nothing but a refresh and the
forgetting of a project takes either of them away, and these do not take them together: a refresh
drops the records of siblings and leaves their URLs, and drops the URL of a resource and leaves what
is flagged further down.

So what a session has done wrong by the two is told by two sets of paths (`Traced`): those whose URL
was lost in a refresh, and those whose URL outlived a record. `Traced.switched_coherent` says that
flags and URLs agree everywhere else.
-/

import StatusCache.Proofs.Cache.History
import StatusCache.Proofs.Checkout
import StatusCache.Proofs.Place
import StatusCache.Proofs.Storage.Refresh
import StatusCache.Storage.Upkeep

open Relation (ReflTransGen)

namespace StatusCache

open Resource (Within PathWithin Proper)

/-! ### The index -/

namespace Switched

/-- Setting the URL of a path leaves those of the others. -/
theorem get?_insert (x : Switched) (r k : Resource) (url : String) :
    (x.insert r url).get? k = if r.path = k.path then some url else x.get? k :=
  Table.get?_insert x.urls r.path k.path url

/-- **The URL of a place is known** if and only if the place or a container above it has one. -/
theorem isSome_resolve? {x : Switched} {r : Resource} (hr : r.WellFormed) :
    (x.resolve? r).isSome ↔ ∃ a ∈ r.lineage, (x.get? a).isSome := by
  unfold resolve?
  cases hself : x.get? r with
  | some url => simpa using ⟨r, r.self_mem_lineage, by simp [hself]⟩
  | none =>
    have hlineage : (∃ a ∈ r.lineage, (x.get? a).isSome) ↔
        ∃ a ∈ r.ancestors, (x.get? a).isSome := by
      simp [Resource.lineage, hself]
    rw [hlineage]
    cases hfound : r.ancestors.find? fun above => (x.get? above).isSome with
    | none => simpa using hfound
    | some above =>
      have hmem := List.mem_of_find?_eq_some hfound
      have hurl : (x.get? above).isSome := by simpa using List.find?_some hfound
      have hrelative : (r.relativeTo? above).isSome := by
        unfold Resource.relativeTo?
        split
        · rfl
        · rw [if_pos ((hr.mem_ancestors_iff (hr.of_mem_ancestors hmem)).1 hmem).2]
          rfl
      obtain ⟨url, hurl'⟩ := Option.isSome_iff_exists.1 hurl
      obtain ⟨relative, hrelative'⟩ := Option.isSome_iff_exists.1 hrelative
      simp only [hurl', hrelative']
      exact iff_of_true rfl ⟨above, hmem, hurl⟩

end Switched

namespace Storage

variable {env : Env} {s s' : Session} {st st' : State} {e : Lookup.Env} {w w' : Lookup.World}
  {r k project : Resource} {record : Record} {lost stale : String → Prop}

/-- The index has a URL for a path. -/
def Indexed (st : State) (path : String) : Prop := (st.switched.urls.get? path).isSome

/-- A resource has a record, or it is the root, which cannot have one. -/
def Held (c : Cache) (r : Resource) : Prop := r.parent? = none ∨ (c.get? r).isSome

/-- Another resource of the same path is held. -/
def Shared (c : Cache) (r : Resource) : Prop := ∃ other, other ≠ r ∧ other.path = r.path ∧ Held c other

/-- Paths that lose their URL from one state to another. -/
def Loses (st st' : State) (path : String) : Prop := Indexed st path ∧ ¬Indexed st' path

/-- Paths whose URL outlives a record, from one state to another. -/
def Outlives (st st' : State) (path : String) : Prop :=
  Indexed st' path ∧ ∃ r, r.path = path ∧ (st.cache.get? r).isSome ∧ st'.cache.get? r = none

/-- The sessions that requests lead to, with the paths that have lost their URL in a refresh, and
those whose URL has outlived a record. -/
inductive Traced : Session → (String → Prop) → (String → Prop) → Prop
  | start (config : Config) (now : Int) :
      Traced { storage := make config now } (fun _ => False) (fun _ => False)
  | look {s : Session} {lost stale : String → Prop} (h : Traced s lost stale) (env : Env)
      {q : Request} (hq : q.Looks) : Traced (q.run env s) lost stale
  | refresh {s s' : Session} {lost stale : String → Prop} (h : Traced s lost stale)
      {rs : List Resource} {depth : Depth} (hs' : ((Storage.refresh rs depth).run s).2 = s') :
      Traced s' (fun path => lost path ∨ Loses s.storage.state s'.storage.state path)
        (fun path => stale path ∨ Outlives s.storage.state s'.storage.state path)
  | forget {s : Session} {lost stale : String → Prop} (h : Traced s lost stale)
      {project : Resource} (hproject : project.Proper) (hkind : project.kind = .project) :
      Traced ((forgetProject project).run s).2 lost stale

/-! ### What lookups keep -/

/-- Every place with a flag has a URL, or a container above it has one, unless one was lost. -/
def Resolved (st : State) (lost : String → Prop) : Prop :=
  ∀ r record, r.Proper → st.cache.get? r = some record → record.mask.switched →
    ∃ a ∈ r.lineage, Indexed st a.path ∨ lost a.path

/-- Every URL at a place belongs to a resource that is held, or is stale. -/
def Owned (st : State) (stale : String → Prop) : Prop :=
  ∀ r : Resource, r.Proper → Indexed st r.path →
    (∃ owner : Resource, owner.path = r.path ∧ Held st.cache owner) ∨ stale r.path

/-- The record of a resource with a URL carries the flag, or it is plain, or the URL may be that of
another resource or stale. -/
def Excused (c : Cache) (stale : String → Prop) (r : Resource) (record : Record) : Prop :=
  record.mask.switched ∨ (∃ text mask, record = .bare r text mask) ∨ Shared c r ∨ stale r.path

/-- Every place with a URL has the flag, or an excuse. -/
def Flagged (st : State) (stale : String → Prop) : Prop :=
  ∀ r record, r.Proper → st.cache.get? r = some record → Indexed st r.path →
    Excused st.cache stale r record

/-- Noting a record adds its path to the index, if it is flagged. -/
theorem indexed_noted {url path : String} : Indexed (Lookup.noted record url w).state path ↔
    (record.mask.switched ∧ record.resource.path = path) ∨ Indexed w.state path := by
  unfold Lookup.noted Indexed
  split
  next h =>
    simp only [Switched.insert, Table.get?_insert, h, true_and]
    by_cases hpath : record.resource.path = path <;> simp [hpath]
  next h => simp [h]

/-- A record that is put in is held. -/
theorem held_put (c : Cache) (record : Record) : Held (c.put record) record.resource := by
  unfold Held
  rw [Cache.get?_put]
  cases hp : record.resource.parent? with
  | none => exact Or.inl rfl
  | some p => simp

/-- What is held stays held. -/
theorem Held.put {c : Cache} (h : Held c r) (record : Record) : Held (c.put record) r := by
  rcases h with h | h
  · exact Or.inl h
  · right
    rw [Cache.get?_put]
    split
    · rfl
    · exact h

/-- A path that is shared stays shared. -/
theorem Shared.put {c : Cache} (h : Shared c r) (record : Record) : Shared (c.put record) r := by
  obtain ⟨other, hne, hpath, hheld⟩ := h
  exact ⟨other, hne, hpath, hheld.put record⟩

/-- An excuse stays one. -/
theorem Excused.put {c : Cache} (h : Excused c stale r record) (other : Record) :
    Excused (c.put other) stale r record :=
  h.imp_right fun h => h.imp_right fun h => h.imp_left fun h => h.put other

/-- A record that is written is found by its own resource alone. -/
theorem get?_put_cases {c : Cache} {written : Record}
    (h : (c.put written).get? k = some record) :
    (written.resource = k ∧ k.parent?.isSome ∧ record = written) ∨
      (written.resource ≠ k ∧ c.get? k = some record) := by
  rw [Cache.get?_put] at h
  split at h
  next hk => exact Or.inl ⟨hk.1, hk.2, (Option.some.inj h).symm⟩
  next hk =>
    refine Or.inr ⟨fun heq => hk ⟨heq, ?_⟩, h⟩
    obtain ⟨p, hp, -⟩ := Cache.get?_eq_some.1 h
    rw [hp]
    rfl

/-- A description leaves URLs, and brings that of what it flags. -/
theorem indexed_described {batch : Lookup.Batch} {f : Lookup.Finding} {above : Option Record}
    {isExternal : Bool} {text : Status} {path : String} :
    Indexed (Lookup.described e batch f above isExternal text w).state path ↔
      ((Lookup.maskOf batch f above isExternal).switched ∧ f.resource.path = path) ∨
        Indexed w.state path :=
  indexed_noted

/-- A plain record is flagged only below a flagged one, and an entry notes what it flags. -/
theorem resolved_of_lookup (h : Lookup.Step e w w') (hw : Resolved w.state lost) :
    Resolved w'.state lost := by
  cases h with
  | ask => exact hw
  | leave => exact hw
  | clear => intro r record _ hget; simp at hget
  | ensure container => intro r record hr hget; exact hw r record hr (by simpa using hget)
  | plain node text mask hmask =>
    intro r record hr hget hflag
    rcases get?_put_cases hget with ⟨hnode, -, rfl⟩ | ⟨-, hget⟩
    · rw [Lookup.resource_committed] at hnode
      obtain rfl : node = r := hnode
      rw [Lookup.mask_committed] at hflag
      obtain ⟨above, habove, hflagged⟩ := (Option.any_eq_true _ _).1 (hmask hflag)
      obtain ⟨a, ha, hget⟩ := List.exists_of_findSome?_eq_some habove
      have hlineage := List.mem_cons_of_mem node ha
      obtain ⟨b, hb, hurl⟩ := hw a above (hr.of_mem_lineage hlineage) hget hflagged
      exact ⟨b, Resource.mem_lineage_trans hb hlineage, hurl⟩
    · exact hw r record hr hget hflag
  | describe batch f isExternal text hnew =>
    intro r record hr hget hflag
    rw [Lookup.described, Lookup.cache_registered, Lookup.cache_noted] at hget
    rcases get?_put_cases hget with ⟨hnode, -, rfl⟩ | ⟨-, hget⟩
    · rw [Lookup.resource_committed] at hnode
      rw [Lookup.mask_committed] at hflag
      obtain rfl : f.resource = r := hnode
      exact ⟨_, Resource.self_mem_lineage _, Or.inl (indexed_described.2 (Or.inl ⟨hflag, rfl⟩))⟩
    · obtain ⟨a, ha, hurl⟩ := hw r record hr hget hflag
      exact ⟨a, ha, hurl.imp_left fun hurl => indexed_described.2 (Or.inr hurl)⟩

/-- With a cache, what has a record keeps one. -/
theorem owned_of_lookup (henabled : e.options.cacheEnabled) (h : Lookup.Step e w w')
    (hw : Owned w.state stale) : Owned w'.state stale := by
  have hput : ∀ {r : Resource} (record : Record),
      (∃ owner : Resource, owner.path = r.path ∧ Held w.state.cache owner) ∨ stale r.path →
      (∃ owner : Resource, owner.path = r.path ∧ Held (w.state.cache.put record) owner) ∨
        stale r.path := by
    rintro r record (⟨owner, hpath, hheld⟩ | hstale)
    · exact Or.inl ⟨owner, hpath, hheld.put record⟩
    · exact Or.inr hstale
  cases h with
  | ask => exact hw
  | leave => exact hw
  | clear hdisabled => rw [henabled] at hdisabled; cases hdisabled
  | ensure container =>
    intro r hr hurl
    simpa [Held] using hw r hr hurl
  | plain node text mask hmask => exact fun r hr hurl => hput _ (hw r hr hurl)
  | describe batch f isExternal text hnew =>
    intro r hr hurl
    rw [Lookup.described, Lookup.cache_registered, Lookup.cache_noted]
    rcases indexed_described.1 hurl with ⟨-, hpath⟩ | hurl
    · refine Or.inl ⟨f.resource, hpath, ?_⟩
      have hheld := held_put w.state.cache (e.committed (Lookup.recordOf batch f
        (w.state.cache.nearestAbove? f.resource) isExternal text))
      rwa [Lookup.resource_committed] at hheld
    · exact hput _ (hw r hr hurl)

/-- With a cache, a URL that is there before its resource is described has another owner. -/
theorem flagged_of_lookup (henabled : e.options.cacheEnabled) (h : Lookup.Step e w w')
    (howned : Owned w.state stale) (hw : Flagged w.state stale) : Flagged w'.state stale := by
  cases h with
  | ask => exact hw
  | leave => exact hw
  | clear hdisabled => rw [henabled] at hdisabled; cases hdisabled
  | ensure container =>
    intro r record hr hget hurl
    simpa [Excused, Shared, Held] using hw r record hr (by simpa using hget) hurl
  | plain node text mask hmask =>
    intro r record hr hget hurl
    rcases get?_put_cases hget with ⟨hnode, -, rfl⟩ | ⟨-, hget⟩
    · rw [Lookup.resource_committed] at hnode
      obtain rfl : node = r := hnode
      obtain ⟨text', hplain⟩ := Lookup.committed_bare e node text mask
      exact Or.inr (Or.inl ⟨text', mask, hplain⟩)
    · exact (hw r record hr hget hurl).put _
  | describe batch f isExternal text hnew =>
    intro r record hr hget hurl
    have hheld := held_put w.state.cache (e.committed (Lookup.recordOf batch f
      (w.state.cache.nearestAbove? f.resource) isExternal text))
    rw [Lookup.described, Lookup.cache_registered, Lookup.cache_noted] at hget ⊢
    rcases get?_put_cases hget with ⟨hnode, hparent, rfl⟩ | ⟨hnode, hget⟩
    · rw [Lookup.resource_committed] at hnode
      obtain rfl : f.resource = r := hnode
      rcases indexed_described.1 hurl with ⟨hflag, -⟩ | hurl
      · exact Or.inl (by rw [Lookup.mask_committed]; exact hflag)
      -- The URL was there before: its owner is another resource, since this one had no record.
      · refine Or.inr (Or.inr ((howned _ hr hurl).imp_left ?_))
        rintro ⟨owner, hpath, howner⟩
        refine ⟨owner, ?_, hpath, howner.put _⟩
        rintro rfl
        rcases howner with hnone | hsome
        · simp [hnone] at hparent
        · simp [hnew] at hsome
    · rw [Lookup.resource_committed] at hnode hheld
      rcases indexed_described.1 hurl with ⟨-, hpath⟩ | hurl
      · exact Or.inr (Or.inr (Or.inl ⟨f.resource, hnode, hpath, hheld⟩))
      · exact (hw r record hr hget hurl).put _

/-! ### What is taken away -/

/-- From one state to another, records and URLs only go. -/
structure Shrinks (st st' : State) : Prop where
  records : ∀ {r record}, st'.cache.get? r = some record → st.cache.get? r = some record
  index : ∀ {path}, Indexed st' path → Indexed st path

namespace Shrinks

/-- Nothing goes from a state to itself. -/
theorem refl (st : State) : Shrinks st st := ⟨id, id⟩

/-- What only goes in two spans of time only goes in both together. -/
theorem trans {st'' : State} (h : Shrinks st st') (h' : Shrinks st' st'') : Shrinks st st'' :=
  ⟨fun hr => h.records (h'.records hr), fun hurl => h.index (h'.index hurl)⟩

/-- What is held stays so, or the URL of its path outlives its record. -/
theorem held {owner : Resource} (h : Held st.cache owner) (hurl : Indexed st' owner.path) :
    Held st'.cache owner ∨ Outlives st st' owner.path := by
  rcases h with h | h
  · exact Or.inl (Or.inl h)
  · cases hafter : st'.cache.get? owner with
    | none => exact Or.inr ⟨hurl, owner, rfl, h, hafter⟩
    | some record => exact Or.inl (Or.inr (by rw [hafter]; rfl))

/-- Flags stay resolved, but for what was lost. -/
theorem resolved (h : Shrinks st st') (hst : Resolved st lost) :
    Resolved st' (fun path => lost path ∨ Loses st st' path) := by
  intro r record hr hget hflag
  obtain ⟨a, ha, hurl | hlost⟩ := hst r record hr (h.records hget) hflag
  · by_cases hafter : Indexed st' a.path
    · exact ⟨a, ha, Or.inl hafter⟩
    · exact ⟨a, ha, Or.inr (Or.inr ⟨hurl, hafter⟩)⟩
  · exact ⟨a, ha, Or.inr (Or.inl hlost)⟩

/-- URLs stay owned, but for those that outlive their records. -/
theorem owned (h : Shrinks st st') (hst : Owned st stale) :
    Owned st' (fun path => stale path ∨ Outlives st st' path) := by
  intro r hr hurl
  rcases hst r hr (h.index hurl) with ⟨owner, hpath, howner⟩ | hstale
  · rw [← hpath] at hurl ⊢
    rcases held howner hurl with hheld | houtlives
    · exact Or.inl ⟨owner, rfl, hheld⟩
    · exact Or.inr (Or.inr houtlives)
  · exact Or.inr (Or.inl hstale)

/-- URLs stay flagged, but for those that outlive their records. -/
theorem flagged (h : Shrinks st st') (hst : Flagged st stale) :
    Flagged st' (fun path => stale path ∨ Outlives st st' path) := by
  intro r record hr hget hurl
  rcases hst r record hr (h.records hget) (h.index hurl) with
    hflag | hplain | ⟨other, hne, hpath, hother⟩ | hstale
  · exact Or.inl hflag
  · exact Or.inr (Or.inl hplain)
  · rcases held hother (hpath ▸ hurl) with hheld | houtlives
    · exact Or.inr (Or.inr (Or.inl ⟨other, hne, hpath, hheld⟩))
    · exact Or.inr (Or.inr (Or.inr (Or.inr (hpath ▸ houtlives))))
  · exact Or.inr (Or.inr (Or.inr (Or.inl hstale)))

end Shrinks

/-- Removing a URL adds none. -/
theorem indexed_remove {x : Switched} {path : String}
    (h : ((x.remove r).urls.get? path).isSome) : (x.urls.get? path).isSome := by
  rw [Switched.remove, Table.get?_erase] at h
  split at h
  · cases h
  · exact h

/-- Refreshing one resource removes buckets and URLs. -/
theorem shrinks_refreshOne (depth : Depth) (st : State) (r : Resource) :
    Shrinks st (refreshOne depth st r) := by
  have hdrop : ∀ {k record}, (st.cache.invalidate r depth).2.get? k = some record →
      st.cache.get? k = some record := fun {k record} =>
    Cache.drop_induction (motive := fun c => c.get? k = some record → st.cache.get? k = some record)
      (fun c container hc h => hc (Cache.get?_of_removeBucket h)) r id
  have hindex : ∀ (visited : List Resource) (x : Switched) {path : String},
      ((visited.foldl Switched.remove x).urls.get? path).isSome → (x.urls.get? path).isSome := by
    intro visited
    induction visited with
    | nil => exact fun x path h => h
    | cons k visited ih => exact fun x path h => indexed_remove (ih _ h)
  refine ⟨fun {k record} hget => ?_, fun {path} hurl => hindex _ _ hurl⟩
  unfold refreshOne at hget
  simp only at hget
  split at hget
  · exact hdrop (Cache.get?_of_removeBucket hget)
  · exact hdrop hget

/-- A refresh only takes away. -/
theorem shrinks_refresh (rs : List Resource) (depth : Depth) (st : State) :
    Shrinks st (rs.foldl (refreshOne depth) st) := by
  induction rs generalizing st with
  | nil => exact .refl st
  | cons r rs ih => exact (shrinks_refreshOne depth st r).trans (ih _)

/-! ### Forgetting a project -/

/-- The state that is left of another one when a project is forgotten. -/
def forgotten (project : Resource) (st : State) : State :=
  { st with
    cache := st.cache.forgetProject project
    switched := st.switched.forgetProject project
    monitor := st.monitor.forget project }

/-- What the index keeps when a project is forgotten does not lie in it, by its path. -/
theorem keeps_path_iff {path : String} : (path ≠ project.path &&
    !(project.path ++ "/").toList.isPrefixOf path.toList) = true ↔ ¬PathWithin project path := by
  rw [PathWithin, not_or, ← List.isPrefixOf_iff_prefix]
  simp only [Bool.and_eq_true, decide_eq_true_eq, Bool.not_eq_true', Bool.not_eq_true, ne_eq]

/-- A project that is forgotten leaves no URL in it. -/
theorem get?_forgetProject_of_pathWithin {path : String} (x : Switched)
    (h : PathWithin project path) : (x.forgetProject project).urls.get? path = none := by
  rw [Switched.forgetProject, Table.get?_filter, if_neg fun hkeep => keeps_path_iff.1 hkeep h]

/-- A project that is forgotten leaves the other URLs. -/
theorem get?_forgetProject_of_not_pathWithin {path : String} (x : Switched)
    (h : ¬PathWithin project path) :
    (x.forgetProject project).urls.get? path = x.urls.get? path := by
  rw [Switched.forgetProject, Table.get?_filter, if_pos (keeps_path_iff.2 h)]

/-- The paths that are left do not lie in the forgotten project. -/
theorem indexed_forgotten {path : String} : Indexed (forgotten project st) path ↔
    Indexed st path ∧ ¬PathWithin project path := by
  unfold Indexed forgotten
  by_cases hpath : PathWithin project path
  · simp [get?_forgetProject_of_pathWithin st.switched hpath, hpath]
  · simp [get?_forgetProject_of_not_pathWithin st.switched hpath, hpath]

/-- What does not lie in a project, nor has its parent there, keeps its record. -/
theorem get?_forgetProject (c : Cache) (hr : ¬Within project r)
    (hparent : ∀ p, r.parent? = some p → ¬Within project p) :
    (c.forgetProject project).get? r = c.get? r := by
  unfold Cache.get?
  cases hp : r.parent? with
  | none => rfl
  | some p =>
    have hbucket : r ∈ (c.forgetProject project).bucket p ↔ r ∈ c.bucket p := by
      rw [Cache.bucket_forgetProject,
        if_neg (show ¬(p = project ∨ project.isAncestorOf p) from hparent p hp)]
      split
      · simpa using fun _ heq => hr (Or.inl heq)
      · rfl
    simp only [Option.bind_eq_bind, Option.bind_some, hbucket, Cache.records_forgetProject]
    rw [if_neg (show ¬(r = project ∨ project.isAncestorOf r) from hr)]

/-- The records that are left do not lie in the forgotten project. -/
theorem get?_of_forgetProject {c : Cache}
    (h : (c.forgetProject project).get? r = some record) :
    c.get? r = some record ∧ ¬Within project r := by
  obtain ⟨p, hp, hmem, hrecord⟩ := Cache.get?_eq_some.1 h
  rw [Cache.records_forgetProject] at hrecord
  split at hrecord
  · cases hrecord
  next hstays =>
    refine ⟨Cache.get?_eq_some.2 ⟨p, hp, ?_, hrecord⟩, hstays⟩
    rw [Cache.bucket_forgetProject] at hmem
    split at hmem
    · cases hmem
    split at hmem
    · exact (List.mem_filter.1 hmem).1
    · exact hmem

/-- To forget a project only takes away. -/
theorem shrinks_forgotten (project : Resource) (st : State) :
    Shrinks st (forgotten project st) :=
  ⟨fun hget => (get?_of_forgetProject hget).1, fun hurl => (indexed_forgotten.1 hurl).1⟩

/-- A place that is left does not lie below one whose URL is forgotten. -/
theorem not_loses_forgotten (hproject : project.Proper) (hkind : project.kind = .project)
    (hr : r.Proper) (hget : (forgotten project st).cache.get? r = some record) {a : Resource}
    (ha : a ∈ r.lineage) : ¬Loses st (forgotten project st) a.path := by
  rintro ⟨hurl, hgone⟩
  have hwithin : PathWithin project a.path := by
    by_contra hnot
    exact hgone (indexed_forgotten.2 ⟨hurl, hnot⟩)
  have ha' := (hr.of_mem_lineage ha).within_of_pathWithin hproject hkind hwithin
  exact (get?_of_forgetProject hget).2 (hr.within_of_mem_lineage hproject hkind ha ha')

/-- A URL that is left at a place does not outlive a record. -/
theorem not_outlives_forgotten (hproject : project.Proper) (hkind : project.kind = .project)
    (hr : r.Proper) : ¬Outlives st (forgotten project st) r.path := by
  rintro ⟨hurl, other, hpath, hbefore, hafter⟩
  obtain ⟨name, hname⟩ := hproject.segments_project hkind
  have hother : ¬Within project other := fun hwithin =>
    (indexed_forgotten.1 hurl).2 (hpath ▸ Resource.pathWithin_of_within hname hkind hwithin)
  have hparent : ∀ p, other.parent? = some p → ¬Within project p := fun p hp hwithin =>
    hother (hr.within_of_parent? hpath hname hkind hp hwithin)
  rw [forgotten, get?_forgetProject st.cache hother hparent] at hafter
  rw [hafter] at hbefore
  cases hbefore

/-- To forget a project loses no URL that a flag needs. -/
theorem resolved_forgotten (hproject : project.Proper) (hkind : project.kind = .project)
    (h : Resolved st lost) : Resolved (forgotten project st) lost := by
  intro r record hr hget hflag
  obtain ⟨a, ha, hurl | hlost | hloses⟩ :=
    (shrinks_forgotten project st).resolved h r record hr hget hflag
  · exact ⟨a, ha, Or.inl hurl⟩
  · exact ⟨a, ha, Or.inr hlost⟩
  · exact absurd hloses (not_loses_forgotten hproject hkind hr hget ha)

/-- To forget a project leaves no URL behind. -/
theorem owned_forgotten (hproject : project.Proper) (hkind : project.kind = .project)
    (h : Owned st stale) : Owned (forgotten project st) stale := fun r hr hurl =>
  ((shrinks_forgotten project st).owned h r hr hurl).imp_right fun hstale =>
    hstale.resolve_right (not_outlives_forgotten hproject hkind hr)

/-- To forget a project leaves every URL with its flag. -/
theorem flagged_forgotten (hproject : project.Proper) (hkind : project.kind = .project)
    (h : Flagged st stale) : Flagged (forgotten project st) stale := fun r record hr hget hurl =>
  ((shrinks_forgotten project st).flagged h r record hr hget hurl).imp_right fun hexcuse =>
    hexcuse.imp_right fun hexcuse => hexcuse.imp_right fun hstale =>
      hstale.resolve_right (not_outlives_forgotten hproject hkind hr)

/-! ### Sessions -/

/-- What every step of a lookup keeps of the shared state, requests keep. The settings of the
storage stay. -/
theorem Request.state_invariant {I : State → Prop} {q : Request} (hq : q.Looks)
    (hstep : ∀ {w w' : Lookup.World} (e : Lookup.Env),
      e.options.cacheEnabled = s.storage.cacheEnabled → Lookup.Step e w w' → I w.state →
      I w'.state)
    (hs : I s.storage.state) :
    I (q.run env s).storage.state ∧
      (q.run env s).storage.cacheEnabled = s.storage.cacheEnabled := by
  have hsteps := Request.steps env s hq
  generalize q.run env s = s' at hsteps ⊢
  induction hsteps with
  | refl => exact ⟨hs, rfl⟩
  | tail _ hlast ih =>
    obtain ⟨hstate, henabled⟩ := ih
    cases hlast with
    | look hw hcalls hlook => exact ⟨hstep _ henabled hlook (hw ▸ hstate), henabled⟩
    | queue q => exact ⟨hstate, henabled⟩

/-- In every session flags are resolved, but for what was lost. -/
theorem Traced.resolved (h : Traced s lost stale) : Resolved s.storage.state lost := by
  induction h with
  | start config now => intro r record _ hget; simp [make] at hget
  | look h env hq ih =>
    exact (Request.state_invariant (I := fun st => Resolved st _) hq
      (fun e _ hlook hw => resolved_of_lookup hlook hw) ih).1
  | refresh h hs' ih =>
    subst hs'
    exact (shrinks_refresh _ _ _).resolved ih
  | forget h hproject hkind ih => exact resolved_forgotten hproject hkind ih

/-- With a cache, every URL at a place has an owner, and what has a URL has the flag. -/
theorem Traced.flagged (h : Traced s lost stale) (henabled : s.storage.cacheEnabled) :
    Owned s.storage.state stale ∧ Flagged s.storage.state stale := by
  induction h with
  | start config now =>
    refine ⟨fun r _ hurl => ?_, fun r record _ hget => ?_⟩
    · simp [make, Indexed] at hurl
    · simp [make] at hget
  | @look s lost stale h env q hq ih =>
    have hsame : (q.run env s).storage.cacheEnabled = s.storage.cacheEnabled :=
      (Request.state_invariant (I := fun _ => True) hq (fun _ _ _ _ => trivial) trivial).2
    rw [hsame] at henabled
    refine (Request.state_invariant (I := fun st => Owned st stale ∧ Flagged st stale) hq
      (fun e he hlook hw => ?_) (ih henabled)).1
    rw [henabled] at he
    exact ⟨owned_of_lookup he hlook hw.1, flagged_of_lookup he hlook hw.1 hw.2⟩
  | refresh h hs' ih =>
    subst hs'
    obtain ⟨howned, hflagged⟩ := ih henabled
    exact ⟨(shrinks_refresh _ _ _).owned howned, (shrinks_refresh _ _ _).flagged hflagged⟩
  | forget h hproject hkind ih =>
    obtain ⟨howned, hflagged⟩ := ih henabled
    exact ⟨owned_forgotten hproject hkind howned, flagged_forgotten hproject hkind hflagged⟩

/-- **Flags and URLs agree, as far as refreshes leave them together.** In every session, a cached
place that carries the flag has a URL, unless the URL of the place or of a container above it was
lost in a refresh. With a cache, a cached place with a URL of its own carries the flag, unless its
record is plain, or the URL may be that of another resource of the same path, or the URL has
outlived a record in a refresh. Neither exception comes from forgetting projects. -/
theorem Traced.switched_coherent (h : Traced s lost stale) (hr : r.Proper)
    (hget : s.storage.state.cache.get? r = some record) :
    (record.mask.switched →
      (s.storage.state.switched.resolve? r).isSome ∨ ∃ a ∈ r.lineage, lost a.path) ∧
    (s.storage.cacheEnabled → (s.storage.state.switched.get? r).isSome →
      Excused s.storage.state.cache stale r record) := by
  refine ⟨fun hflag => ?_, fun henabled hurl => (h.flagged henabled).2 r record hr hget hurl⟩
  obtain ⟨a, ha, hurl | hlost⟩ := h.resolved r record hr hget hflag
  · exact Or.inl ((Switched.isSome_resolve? hr.toWellFormed).2 ⟨a, ha, hurl⟩)
  · exact Or.inr ⟨a, ha, hlost⟩

/-- A folder whose URL is not below that of the working copy is flagged, and has the URL. -/
theorem Traced.switched_coherent_folder :
    let env := Checkout.env [(["wc", "a"], .dir 0)]
      { status := [("wc", .ok [Checkout.root]),
          ("wc/a", .ok [Checkout.folder "wc/a" "http://h/r/branches/a"])] }
    let s := Request.run env Checkout.start (.status (.folder "/p/a"))
    Traced s (fun _ => False) (fun _ => False) ∧
      (s.storage.state.switched.resolve? (.folder "/p/a")).isSome := by
  intro env s
  have hs : Traced s (fun _ => False) (fun _ => False) := .look (.start {} 0) env trivial
  refine ⟨hs, ?_⟩
  have hplace : (Resource.folder "/p/a").Proper := Resource.proper_ofPath "/p/a" .folder (.inl rfl)
  have hflag : (s.storage.state.cache.get? (.folder "/p/a")).any (·.mask.switched) := by
    unfold s env
    decide +kernel
  obtain ⟨record, hget, hswitched⟩ := (Option.any_eq_true _ _).1 hflag
  rcases (hs.switched_coherent hplace hget).1 hswitched with hurl | ⟨a, ha, hlost⟩
  · exact hurl
  · exact hlost.elim

end Storage
end StatusCache
