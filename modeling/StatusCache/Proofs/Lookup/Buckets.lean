/-
# What the buckets of a lookup tell

A bucket lists the children of a container that have a record. A container gets one with the first
record of a child, and an empty one, which says that there are no children, where the backend has
answered with a single entry for it. Nothing else makes an empty bucket (`fills_reload`), but the
single entry need not be the whole truth: it comes as well when only the container was asked about,
when its working copy needs a cleanup, and when the backend answers with a node below.

After a container is loaded it has a bucket, if one entry was the answer, or a child got a record.
Several entries of which those about a child are omitted (`Batch.Omits`), and containers outside of
version control whose members are passed over or that have none, leave no trace
(`bucket_of_reload`).
-/

import StatusCache.Proofs.Lookup.Account

open Relation (ReflTransGen)

namespace StatusCache

/-! ### Answered requests -/

/-- A request for the entries of a container was made since `start`, and its place, depth and answer
are as `P` says. Both lists of requests have the newest first. -/
def Backend.Answered (b : Backend) (h : Host) (start calls : List Backend.Call) (c : Resource)
    (P : Path → Backend.Depth → Except Backend.Failure (List Entry) → Prop) : Prop :=
  ∃ place depth older, h.location? c = some place ∧ start <:+ older ∧
    .status place depth { unchanged := true, ignored := true } :: older <:+ calls ∧
    P place depth (b.status older place depth { unchanged := true, ignored := true })

namespace Backend.Answered

variable {b : Backend} {h : Host} {start start' calls calls' : List Backend.Call} {c : Resource}
  {P Q : Path → Backend.Depth → Except Backend.Failure (List Entry) → Prop}

/-- A request made in a span of time was made in a longer one, and its answer may be told more
loosely. -/
theorem mono (ha : b.Answered h start calls c P) (hstart : start' <:+ start)
    (hcalls : calls <:+ calls') (hPQ : ∀ place depth answer, P place depth answer →
      Q place depth answer) : b.Answered h start' calls' c Q := by
  obtain ⟨place, depth, older, hplace, hsince, hmade, hP⟩ := ha
  exact ⟨place, depth, older, hplace, hstart.trans hsince, hmade.trans hcalls, hPQ _ _ _ hP⟩

/-- A request that was made stays made. -/
theorem later (ha : b.Answered h start calls c P) (hcalls : calls <:+ calls') :
    b.Answered h start calls' c P :=
  ha.mono List.suffix_rfl hcalls fun _ _ _ => id

end Backend.Answered

namespace Lookup

/-- The answer to a request for a container and its children gives one node, or says that the
working copy needs a cleanup. -/
def Lone (_ : Path) (depth : Backend.Depth) (answer : Except Backend.Failure (List Entry)) : Prop :=
  depth ≠ .files ∧
    ((∃ e, answer = .ok [e]) ∨ ∃ place, answer = .error (.cleanupRequired place))

/-- The answer to a request for a container at a place gives several nodes, and those that are about a
child are omitted when the answer is worked through. -/
def Untold (env : Env) (start finish : List Backend.Call) (c : Resource) (place : Path)
    (_ : Backend.Depth) (answer : Except Backend.Failure (List Entry)) : Prop :=
  ∃ entries, answer = .ok entries ∧ 2 ≤ entries.length ∧
    ∀ project ∈ c.project?, ∀ binding ∈ env.host.binding? project,
      let batch : Batch :=
        { resource := c, target := c, entries := Entry.arrange entries, root := binding.location
          desiredUrl := Url.append binding.node.url c.projectPath, requested := place }
      ∀ before e after, batch.entries = before ++ e :: after →
        (batch.finding env project e).resource.parent? = some c →
          batch.Omits env project start finish before.isEmpty e

variable {env : Env} {w w' : World} {c p r m : Resource} {record : Record} {depth : Depth}
  {batch : Batch} {isLinked : Bool} {scan : Scan}

/-- Entries are omitted for what was asked in a longer span of time as well. -/
theorem Untold.mono {start start' finish finish' : List Backend.Call} {place : Path}
    {levels : Backend.Depth} {answer : Except Backend.Failure (List Entry)}
    (h : Untold env start finish c place levels answer) (hstart : start' <:+ start)
    (hfinish : finish <:+ finish') : Untold env start' finish' c place levels answer := by
  obtain ⟨entries, hanswer, hseveral, homits⟩ := h
  exact ⟨entries, hanswer, hseveral, fun project hproject binding hbinding before e after hsplit hp =>
    (homits project hproject binding hbinding before e after hsplit hp).mono hstart hfinish⟩

/-! ### Where empty buckets come from -/

/-- From one world to another requests are made, and a container whose bucket is empty had an empty
bucket before, or the backend gave one node for it. -/
structure Fills (env : Env) (w w' : World) : Prop where
  calls : w.calls <:+ w'.calls
  buckets : ∀ c, w'.state.cache.buckets.get? c = some [] →
    w.state.cache.buckets.get? c = some [] ∨
      env.backend.Answered env.host [] w'.calls c Lone

/-- If the cache stays the same, no bucket becomes empty. -/
theorem Fills.of_eq (hcalls : w.calls <:+ w'.calls)
    (hcache : w'.state.cache = w.state.cache) : Fills env w w' :=
  ⟨hcalls, fun _ hc => .inl (hcache ▸ hc)⟩

/-- Empty buckets of a whole run are accounted for if those of its steps are. -/
theorem fills_of_steps (h : ReflTransGen (Fills env) w w') : Fills env w w' := by
  induction h with
  | refl => exact .of_eq List.suffix_rfl rfl
  | tail _ hlast ih =>
    refine ⟨ih.calls.trans hlast.calls, fun c hc => ?_⟩
    rcases hlast.buckets c hc with hbefore | hanswered
    · exact (ih.buckets c hbefore).imp_right fun hanswered => hanswered.later hlast.calls
    · exact .inr hanswered

/-- A record that is written makes no bucket empty. -/
theorem Write.fills (h : Write env w w') : Fills env w w' := by
  refine ⟨h.turn.calls, fun c hc => .inl ?_⟩
  cases h with
  | ask => exact hc
  | ignore => exact Cache.buckets_of_put hc
  | scan => exact Cache.buckets_of_put hc
  | describe =>
    rw [described, cache_registered, cache_noted] at hc
    exact Cache.buckets_of_put hc

/-- Working through a batch makes no bucket empty. -/
theorem fills_fill (env : Env) (batch : Batch) : Moves (Fills env) (fill env batch) :=
  (moves_fill batch).mono fun _ _ => Write.fills

/-- The backend is never asked for files alone. -/
theorem backendDepth_ne_files (isRoot isContainer : Bool) (depth : Depth) :
    backendDepth env isRoot isContainer depth ≠ .files := by
  unfold backendDepth
  cases isContainer <;> cases depth <;> split <;> simp

/-- A single entry is the answer of the backend, or stands for its failure. -/
theorem lone_of_arranged {path : Path} {depth : Backend.Depth} {entries : List Entry}
    {answer : Except Backend.Failure (List Entry)} (hdepth : depth ≠ .files)
    (h : (∃ found, answer = .ok found ∧ entries = Entry.arrange found) ∨
      (∃ place, answer = .error (.cleanupRequired place) ∧ entries = [Entry.needsCleanup path]) ∨
      entries = [])
    (hone : entries.length = 1) : Lone path depth answer := by
  refine ⟨hdepth, ?_⟩
  rcases h with ⟨found, rfl, rfl⟩ | ⟨place, rfl, -⟩ | rfl
  · rw [Entry.arrange, List.length_mergeSort] at hone
    obtain ⟨e, rfl⟩ := List.length_eq_one_iff.1 hone
    exact .inl ⟨e, rfl⟩
  · exact .inr ⟨place, rfl⟩
  · cases hone

/-- The cache after an answer was worked through: the target of a single entry has a bucket. -/
def Batch.ensured (batch : Batch) (cache : Cache) : Cache :=
  if batch.entries.length = 1 && batch.target.isContainer then cache.ensureBucket batch.target
  else cache

/-- The jobs that an answer leaves: one, if it has a record of the resource and several folders are
deferred. -/
def Batch.left (batch : Batch) (env : Env) (depth : Depth) (record : Option Record)
    (deferred : List Entry) : List FetchJob :=
  if record.isSome && deferred.length > 1 && depth ≠ .zero && env.options.cacheEnabled then
    [{ target := batch.target, entries := deferred }]
  else []

/-- An answer is committed by working through its entries, and then at most its target gets a bucket
and a job is left. -/
theorem run_commitAnswer (env : Env) (depth : Depth) (batch : Batch) (w : World) :
    (∃ e v, (fill env batch).run w = (.error e, v) ∧
      (commitAnswer env depth (some batch)).run w = (.error e, v)) ∨
    ∃ record deferred v v', (fill env batch).run w = (.ok (record, deferred), v) ∧
      (commitAnswer env depth (some batch)).run w = (.ok record, v') ∧ v'.calls = v.calls ∧
      v'.state.cache = batch.ensured v.state.cache ∧
      v'.jobs = v.jobs ++ batch.left env depth record deferred := by
  unfold commitAnswer Batch.ensured
  rw [run_bind]
  rcases (fill env batch).run w with ⟨e | ⟨record, deferred⟩, v⟩
  · exact .inl ⟨e, v, rfl, rfl⟩
  · right
    -- Leaving a job changes the jobs only.
    have hleave : ∀ v : World, ∃ v',
        (if record.isSome && deferred.length > 1 && depth ≠ .zero && env.options.cacheEnabled then
          (modify fun w => { w with
            jobs := w.jobs ++ [{ target := batch.target, entries := deferred }] } : Action Unit) >>=
              fun _ => pure record
        else pure record).run v = (.ok record, v') ∧ v'.calls = v.calls ∧ v'.state = v.state ∧
          v'.jobs = v.jobs ++ batch.left env depth record deferred := by
      intro v
      unfold Batch.left
      split
      · exact ⟨_, rfl, rfl, rfl, rfl⟩
      · exact ⟨v, rfl, rfl, rfl, (List.append_nil _).symm⟩
    simp only
    split
    · let u : World :=
        { v with state := { v.state with cache := v.state.cache.ensureBucket batch.target } }
      have hensure : (change fun s =>
          { s with cache := s.cache.ensureBucket batch.target }).run v = (.ok (), u) := rfl
      rw [run_bind_ok hensure]
      obtain ⟨v', hrun, hcalls, hstate, hjobs⟩ := hleave u
      exact ⟨record, deferred, v, v', rfl, hrun, hcalls, by rw [hstate], hjobs⟩
    · obtain ⟨v', hrun, hcalls, hstate, hjobs⟩ := hleave v
      exact ⟨record, deferred, v, v', rfl, hrun, hcalls, by rw [hstate], hjobs⟩

/-- Requests are added to those that were made before. -/
theorem calls_of_commitAnswer {result : Except Error (Option Record)}
    (hrun : (commitAnswer env depth (some batch)).run w = (result, w')) : w.calls <:+ w'.calls := by
  have hfill := (fills_of_steps (fills_fill env batch w)).calls
  rcases run_commitAnswer env depth batch w with ⟨e, v, hfilled, hcommit⟩ |
    ⟨record, deferred, v, v', hfilled, hcommit, hcalls, -⟩ <;> rw [hfilled] at hfill
  · cases hcommit.symm.trans hrun
    exact hfill
  · cases hcommit.symm.trans hrun
    rwa [hcalls]

/-- What is committed for an answer makes no bucket empty but that of the target. -/
theorem fills_commitAnswer
    (hlone : batch.entries.length = 1 → env.backend.Answered env.host [] w.calls batch.target Lone)
    (depth : Depth) : Fills env w ((commitAnswer env depth (some batch)).run w).2 := by
  have hfill := fills_of_steps (fills_fill env batch w)
  rcases run_commitAnswer env depth batch w with ⟨e, v, hrun, hcommit⟩ |
    ⟨record, deferred, v, v', hrun, hcommit, hcalls, hcache, -⟩ <;> rw [hrun] at hfill
  · rwa [hcommit]
  · rw [hcommit]
    have hmade : w.calls <:+ v'.calls := hcalls ▸ hfill.calls
    refine ⟨hmade, fun c hc => ?_⟩
    have hbefore : v.state.cache.buckets.get? c = some [] →
        w.state.cache.buckets.get? c = some [] ∨
          env.backend.Answered env.host [] v'.calls c Lone := by
      rw [hcalls]
      exact hfill.buckets c
    simp only [hcache, Batch.ensured] at hc
    split at hc
    next hone =>
      rw [Bool.and_eq_true, decide_eq_true_eq] at hone
      rcases Cache.buckets_of_ensureBucket hc with hv | rfl
      · exact hbefore hv
      · exact .inr ((hlone hone.1).later hmade)
    · exact hbefore hc

/-- Empty buckets of a load from the backend are accounted for. -/
theorem fills_loadVersioned (r parent : Resource) (binding : Binding) (depth : Depth) :
    Moves (Fills env) (loadVersioned env r parent binding depth) := by
  intro w
  rw [loadVersioned_eq, askVersioned]
  simp only
  generalize (if r.isContainer then r else parent) = target
  cases hplace : env.host.location? target with
  | none => exact .refl
  | some place =>
    cases env.host.location? r with
    | none => exact .refl
    | some requested =>
      simp only [bind_assoc, pure_bind]
      obtain ⟨result, hrun, hresult⟩ := run_askEntries env place
        (backendDepth env (place.components.length ≤ binding.location.components.length)
          r.isContainer depth) w
      have hasked : ∀ call : Backend.Call, Fills env w { w with calls := call :: w.calls } :=
        fun _ => .of_eq (List.suffix_cons _ _) rfl
      rw [run_bind, hrun]
      cases result with
      | error e => exact .single (hasked _)
      | ok entries =>
        refine .head (hasked _) (.single (fills_commitAnswer (fun hone => ?_) depth))
        exact ⟨place, _, w.calls, hplace, List.nil_suffix, List.suffix_rfl,
          lone_of_arranged (backendDepth_ne_files _ _ _) (hresult entries rfl) hone⟩

/-- A scan makes no bucket empty. -/
theorem fills_scanUnversioned (r : Resource) (isLinked : Bool) (depth : Depth) :
    Moves (Fills env) (scanUnversioned env r isLinked depth) :=
  (moves_scanUnversioned r isLinked depth).mono fun _ _ => Write.fills

/-- An empty cache has no bucket. -/
theorem fills_clear (_ : env.options.cacheEnabled = false) :
    Moves (Fills env) (change fun s => { s with cache := {} }) :=
  .modify fun _ => ⟨List.suffix_rfl, fun c hc => by simp [Table.get?] at hc⟩

/-- **Empty buckets of a reload**: the backend gave one node for the container. -/
theorem fills_reload (r : Resource) (depth : Depth) : Moves (Fills env) (reload env r depth) :=
  moves_reload fills_loadVersioned fills_scanUnversioned fills_clear r depth

/-- Empty buckets of a lookup are accounted for. -/
theorem fills_lookup (r : Resource) (depth : Depth) : Moves (Fills env) (lookup env r depth) :=
  moves_lookup_of fills_loadVersioned fills_scanUnversioned fills_clear r depth

/-! ### Containers that get a bucket -/

/-- A node that is not passed over has a record after it was visited. -/
theorem ensures_visit_recorded (hpass : ¬env.passesOver m) (hm : m.parent?.isSome)
    (origin : Resource) (isLinked : Bool) (scan : Scan) :
    Ensures (fun _ => True) (fun _ w => (w.state.cache.get? m).isSome)
      (visit env origin isLinked 0 m scan) := by
  intro w scan' w' _ hrun
  obtain ⟨_, -, hrun'⟩ := run_visit_zero hpass origin isLinked scan w
  rw [hrun'] at hrun
  cases hrun
  rw [cache_registered, Cache.get?_put, resource_committed, if_pos ⟨rfl, hm⟩]
  rfl

/-- Among the members of a container that are visited, those that are not passed over have a record
in the end. -/
theorem ensures_members_recorded {members : List Resource} (hmem : m ∈ members)
    (hpass : ¬env.passesOver m) (hm : m.parent?.isSome) (origin : Resource) (isLinked : Bool)
    (scan : Scan) :
    Ensures (fun _ => True) (fun _ w => (w.state.cache.get? m).isSome)
      (members.foldlM (fun scan m => visit env origin isLinked 0 m scan) scan) := by
  induction members generalizing scan with
  | nil => cases hmem
  | cons first members ih =>
    rcases List.mem_cons.1 hmem with rfl | hrest
    · refine .bind (ensures_visit_recorded hpass hm origin isLinked scan) fun scan => ?_
      exact .of_moves (.foldlM (fun scan m => moves_visit origin isLinked 0 m scan) members scan)
        fun _ _ h hr => h.isSome_get? hr
    · exact .bind (.trivial _) fun scan => ih hrest scan

/-- A container that is scanned with a member that is not passed over gets a bucket. -/
theorem bucket_of_scan (hcontainer : c.isContainer)
    (hrun : (scanUnversioned env c isLinked .one).run w = (.ok record, w'))
    (hvalid : ¬record.isInvalid) (hmem : m ∈ env.host.members c) (hp : m.parent? = some c)
    (hpass : ¬env.passesOver m) : w'.state.cache.hasBucket c := by
  have hopen : ¬env.passesOver c := by
    intro h
    rw [run_scanUnversioned_of_passesOver h] at hrun
    cases hrun
    exact hvalid rfl
  have hscan : Ensures (fun _ => True) (fun _ w => (w.state.cache.get? m).isSome)
      (scanUnversioned env c isLinked .one) := by
    refine .bind (Q := fun _ w => (w.state.cache.get? m).isSome) ?_ fun scan => .pure fun _ h => h
    rw [Env.levels, visit, if_neg hopen]
    refine .bind (.trivial _) fun scan => ?_
    simp only [hcontainer, if_true]
    exact .mono (ensures_members_recorded hmem hpass (by rw [hp]; rfl) c isLinked scan)
      (fun _ h => h) fun _ _ h => h
  exact Cache.hasBucket_of_parent? hp (hscan w record w' trivial hrun)

/-- **What is scanned has no revision.** -/
theorem baseRevision_of_scan {depth : Depth}
    (hrun : (scanUnversioned env r isLinked depth).run w = (.ok record, w')) :
    record.baseRevision = unknownRevision := by
  let Q (scan : Scan) (_ : World) : Prop :=
    ∀ record ∈ scan.first, record.baseRevision = unknownRevision
  have hstep : ∀ m scan, Ensures (Q scan) Q (registerUnversioned env r isLinked m scan) := by
    intro m scan w scan' w' hscan hrun record hrecord
    obtain ⟨found, hfirst, hrun'⟩ := run_registerUnversioned env r isLinked m scan w
    rw [hrun'] at hrun
    cases hrun
    rw [hfirst] at hrecord
    cases hknown : scan.first with
    | some first =>
      rw [hknown] at hrecord
      exact hscan record (hknown.trans hrecord)
    | none =>
      rw [hknown] at hrecord
      obtain rfl := Option.some.inj hrecord
      rw [baseRevision_committed]
      rfl
  have hempty : ∀ w, Q {} w := fun _ record h => by cases h
  have hscan : Ensures (fun _ => True)
      (fun (record : Record) (_ : World) => record.baseRevision = unknownRevision)
      (scanUnversioned env r isLinked depth) := by
    refine .bind (ensures_visit (fun m _ => hstep m) (fun _ _ _ _ _ => trivial)
      (fun _ _ _ => trivial) (fun _ w _ => hempty w)
      ((hstep r {}).mono (fun w _ => hempty w) fun _ _ h => h) _) fun scan => ?_
    refine .pure fun _ h => ?_
    cases hfirst : scan.first with
    | none => rfl
    | some record => exact h record hfirst
  exact hscan w record w' trivial hrun

/-- Nothing comes of an answer without entries. -/
theorem run_fill_of_nil (env : Env) (hnil : batch.entries = []) (w : World) :
    ∃ deferred, (fill env batch).run w = (.ok (none, deferred), w) := by
  unfold fill
  cases batch.resource.project? with
  | none => exact ⟨_, rfl⟩
  | some project =>
    rw [hnil]
    exact ⟨_, rfl⟩

/-! ### Entries about children -/

/-- An answer for a container with something to say about it gives the container a bucket, or has
several entries and omits those that are about a child. -/
theorem bucket_of_commitAnswer (hcontainer : batch.target.isContainer)
    (hrun : (commitAnswer env depth (some batch)).run w = (.ok (some record), w')) :
    w'.state.cache.hasBucket batch.target ∨ 2 ≤ batch.entries.length ∧
      ∀ project ∈ batch.resource.project?, ∀ before e after,
        batch.entries = before ++ e :: after →
        (batch.finding env project e).resource.parent? = some batch.target →
          batch.Omits env project w.calls w'.calls before.isEmpty e := by
  rcases run_commitAnswer env depth batch w with ⟨e, v, hfill, hcommit⟩ |
    ⟨found, deferred, v, v', hfill, hcommit, hcalls, hcache, -⟩
  · rw [hcommit] at hrun
    cases hrun
  rw [hcommit] at hrun
  obtain ⟨hfound, rfl⟩ := Prod.mk.inj hrun
  obtain rfl := Except.ok.inj hfound
  rw [hcache, hcalls, Batch.ensured]
  by_cases hone : batch.entries.length = 1
  · left
    rw [if_pos (by simp [hone, hcontainer])]
    exact Cache.hasBucket_ensureBucket _ _
  · rw [if_neg (by simp [hone]), or_iff_not_imp_left]
    refine fun hbucket => ⟨?_, fun project hproject before e after hsplit hparent => ?_⟩
    · by_contra hfew
      have hnil : batch.entries = [] := List.length_eq_zero_iff.1 (by omega)
      obtain ⟨_, hfilled⟩ := run_fill_of_nil env hnil w
      rw [hfilled] at hfill
      cases hfill
    · refine (recorded_or_omits hproject (by rw [hparent]; rfl) hfill hsplit).resolve_left ?_
      exact fun hrecorded => hbucket (Cache.hasBucket_of_parent? hparent hrecorded)

/-- A container that the backend knows has a bucket, or the entries about its children were omitted.
-/
theorem bucket_of_loadVersioned {binding : Binding} (hcontainer : c.isContainer)
    (hbinding : c.project?.bind env.host.binding? = some binding)
    (hrun : (loadVersioned env c p binding depth).run w = (.ok (some record), w')) :
    w'.state.cache.hasBucket c ∨
      env.backend.Answered env.host w.calls w'.calls c (Untold env w.calls w'.calls c) := by
  rw [loadVersioned_eq, askVersioned] at hrun
  simp only [hcontainer, if_true] at hrun
  cases hplace : env.host.location? c with
  | none =>
    rw [hplace] at hrun
    cases hrun
  | some place =>
    simp only [hplace, bind_assoc, pure_bind] at hrun
    obtain ⟨result, hask, hresult⟩ := run_askEntries env place
      (backendDepth env (place.components.length ≤ binding.location.components.length) true depth) w
    rw [run_bind, hask] at hrun
    cases result with
    | error e => cases hrun
    | ok entries =>
      simp only at hrun
      refine (bucket_of_commitAnswer hcontainer hrun).imp_right fun hseveral => ?_
      refine ⟨place, _, w.calls, hplace, List.suffix_rfl, calls_of_commitAnswer hrun, ?_⟩
      rcases hresult entries rfl with ⟨found, hfound, rfl⟩ | ⟨_, -, rfl⟩ | rfl
      · obtain ⟨hlength, homits⟩ := hseveral
        rw [Entry.arrange, List.length_mergeSort] at hlength
        refine ⟨found, hfound, hlength, fun project hproject bound hbound => ?_⟩
        rw [hproject, Option.bind_some, hbound] at hbinding
        obtain rfl := Option.some.inj hbinding
        exact fun before e after hsplit hparent =>
          (homits project hproject before e after hsplit hparent).mono (List.suffix_cons _ _)
            List.suffix_rfl
      · simp at hseveral
      · simp at hseveral

section Loads

variable {binding : Binding} {lookupParent : Action Record}

/-- What is known about a resource comes from a load, after the parent was looked up. -/
theorem exists_loadVersioned (hparent : Moves (Turn env) lookupParent)
    (hrun : (loadKnown env lookupParent r p binding depth).run w = (.ok (some record), w')) :
    ∃ v, w.calls <:+ v.calls ∧
      (loadVersioned env r p binding depth).run v = (.ok (some record), w') := by
  have hload : ∀ (versioned : Bool) {v}, w.calls <:+ v.calls →
      (if versioned then loadVersioned env r p binding depth else pure none).run v =
        (.ok (some record), w') →
      ∃ v, w.calls <:+ v.calls ∧
        (loadVersioned env r p binding depth).run v = (.ok (some record), w') := by
    intro versioned v hcalls hrun
    split at hrun
    · exact ⟨v, hcalls, hrun⟩
    · cases hrun
  unfold loadKnown at hrun
  simp only [pure_bind] at hrun
  split at hrun
  · split at hrun
    · exact hload true List.suffix_rfl hrun
    · have hcalls := calls_of_moves hparent w
      rw [run_bind] at hrun
      rcases hlookup : lookupParent.run w with ⟨e | above, v⟩ <;> rw [hlookup] at hrun hcalls
      · cases hrun
      · exact hload _ hcalls hrun
  · cases hrun

/-- What is loaded is known, or it is scanned. -/
theorem orScan_cases {known : Option Record}
    (hrun : (orScan env r depth known).run w = (.ok record, w')) :
    (known = some record ∧ w' = w) ∨
      (scanUnversioned env r (env.host.isLinked r) depth).run w = (.ok record, w') := by
  cases known with
  | none => exact .inr hrun
  | some found =>
    unfold orScan at hrun
    simp only at hrun
    split at hrun
    · exact .inr hrun
    · cases hrun
      exact .inl ⟨rfl, rfl⟩

/-- A resource with a status is known or scanned. Without a cache that is for itself alone. -/
theorem exists_of_run_loadSubtree (hparent : Moves (Turn env) lookupParent)
    (hrun : (loadSubtree env lookupParent r p depth).run w = (.ok record, w'))
    (hvalid : ¬record.isInvalid) :
    (∃ binding below v, r.project?.bind env.host.binding? = some binding ∧ w.calls <:+ v.calls ∧
      (loadVersioned env r p binding below).run v = (.ok (some record), w')) ∨
    ∃ v, (scanUnversioned env r (env.host.isLinked r)
      (if env.options.cacheEnabled then depth else .zero)).run v = (.ok record, w') := by
  unfold loadSubtree at hrun
  cases hbinding : r.project?.bind env.host.binding? with
  | none =>
    rw [hbinding] at hrun
    cases hrun
    exact absurd rfl hvalid
  | some binding =>
    simp only [hbinding] at hrun
    by_cases hinternal : env.host.isInternal r = true
    · rw [if_pos hinternal] at hrun
      cases hrun
      exact absurd rfl hvalid
    rw [if_neg hinternal] at hrun
    -- Without a cache the load is the same, from a state with nothing cached.
    have hrest : ∀ {v}, v.calls = w.calls →
        (loadKnown env lookupParent r p binding
          (if env.options.cacheEnabled then depth else .zero) >>=
          orScan env r (if env.options.cacheEnabled then depth else .zero)).run v =
            (.ok record, w') →
        (∃ bound below v, some binding = some bound ∧ w.calls <:+ v.calls ∧
          (loadVersioned env r p bound below).run v = (.ok (some record), w')) ∨
        ∃ v, (scanUnversioned env r (env.host.isLinked r)
          (if env.options.cacheEnabled then depth else .zero)).run v = (.ok record, w') := by
      intro v hcalls hrun
      rw [run_bind] at hrun
      rcases hknown : (loadKnown env lookupParent r p binding
        (if env.options.cacheEnabled then depth else .zero)).run v with ⟨e | known, u⟩ <;>
        rw [hknown] at hrun
      · cases hrun
      · rcases orScan_cases hrun with ⟨rfl, rfl⟩ | hscan
        · obtain ⟨v', hv', hload⟩ := exists_loadVersioned hparent hknown
          exact .inl ⟨binding, _, v', rfl, hcalls ▸ hv', hload⟩
        · exact .inr ⟨u, hscan⟩
    split at hrun
    · exact hrest (v := { w with state := { w.state with cache := {} } }) rfl hrun
    · exact hrest rfl hrun

end Loads

/-- A lookup that ends with a status was not cut short. -/
theorem run_of_orInvalid {load : Action Record}
    (hrun : (orInvalid r load).run w = (.ok record, w')) (hvalid : ¬record.isInvalid) :
    load.run w = (.ok record, w') := by
  rw [orInvalid, run_tryCatch] at hrun
  rcases hload : load.run w with ⟨e | found, v⟩ <;> rw [hload] at hrun
  · simp only at hrun
    split at hrun
    · cases hrun
    · cases hrun
      exact absurd rfl hvalid
    · cases hrun
  · exact hrun

/-- A container that is looked into without being known has nothing to list: it has no revision, and
all its members are passed over, or there is no cache to list them in. -/
def Unlisted (env : Env) (c : Resource) (record : Record) : Prop :=
  record.baseRevision = unknownRevision ∧
    (env.options.cacheEnabled → ∀ m ∈ env.host.members c, m.parent? = some c → env.passesOver m)

/-- **When a container has a bucket.** A container that was loaded with its children, and has a
status, has a bucket, unless it was scanned and there was nothing to list, or the backend has answered
with several entries for it and those about a child were omitted. -/
theorem bucket_of_reload (hcontainer : c.isContainer)
    (hrun : (reload env c .one).run w = (.ok record, w')) (hvalid : ¬record.isInvalid) :
    w'.state.cache.hasBucket c ∨ Unlisted env c record ∨
      env.backend.Answered env.host w.calls w'.calls c (Untold env w.calls w'.calls c) := by
  cases hp : c.parent? with
  | none =>
    rw [reload, Resource.ancestors_of_parent?_none hp] at hrun
    cases hrun
    exact absurd rfl hvalid
  | some p =>
    rw [reload, Resource.ancestors_of_parent? hp, reloadBelow] at hrun
    split at hrun
    · have hparent : Moves (Turn env) (cachedOr env p (reloadBelow env p.ancestors p .one)) :=
        turns_lookup p .one
      rcases exists_of_run_loadSubtree hparent (run_of_orInvalid hrun hvalid) hvalid with
        ⟨binding, below, v, hbinding, hcalls, hload⟩ | ⟨v, hscan⟩
      · rcases bucket_of_loadVersioned hcontainer hbinding hload with hbucket | hseveral
        · exact .inl hbucket
        · exact .inr (.inr (hseveral.mono hcalls List.suffix_rfl fun _ _ _ huntold =>
          huntold.mono hcalls List.suffix_rfl))
      · by_cases hall : env.options.cacheEnabled →
            ∀ m ∈ env.host.members c, m.parent? = some c → env.passesOver m
        · exact .inr (.inl ⟨baseRevision_of_scan hscan, hall⟩)
        · push Not at hall
          obtain ⟨henabled, m, hmem, hmp, hpass⟩ := hall
          rw [if_pos henabled] at hscan
          exact .inl (bucket_of_scan hcontainer hscan hvalid hmem hmp hpass)
    · cases hrun
      exact absurd rfl hvalid

end Lookup
end StatusCache
