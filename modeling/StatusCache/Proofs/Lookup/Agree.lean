/-
# Lookups in worlds that agree

A lookup that starts from worlds with the same records for a resource and for what is above it gives
the same answer in both (`answers_lookup`). Part by part: what is read there or asked is the same,
so what is recorded there is the same; what is found elsewhere is recorded without being seen. A
backend that never cancels leaves no way to fail, since a resource that any other mishap of it
leaves without a status is invalid.
-/

import StatusCache.Proofs.Lookup.Alike

namespace StatusCache
namespace Lookup

variable {env : Env} {D : Resource → Prop} {w w' : World} {r : Resource}

/-! ### Reading and asking -/

/-- The record of a resource in the set is the same. -/
theorem repeats_cached (hr : D r) : Repeats D (cached r) := fun _ _ hw => ⟨hw r hr, hw⟩

/-- The nearest record above a resource in the set is the same. -/
theorem repeats_cachedAbove (hD : Upward D) (hr : D r) : Repeats D (cachedAbove r) :=
  fun _ _ hw => ⟨hw.nearestAbove? hD hr, hw⟩

/-- A record is registered with the same result. -/
theorem repeats_register (record : Record) : Repeats D (register env record) :=
  fun _ _ hw => ⟨rfl, .registered (hw.mono fun _ hk => hk.1)⟩

/-- Registering a resource outside of the set is not seen. -/
theorem spares_register {record : Record} (hr : ¬D record.resource) :
    Spares D (fun _ => True) (register env record) :=
  fun w => ⟨_, _, run_register env record w, trivial, .registered_of_not hr w⟩

/-- A change of the shared state that keeps the records, or drops them all. -/
theorem repeats_change {f : State → State}
    (hf : ∀ w w' : World, Agree D w w' →
      Agree D { w with state := f w.state } { w' with state := f w'.state }) :
    Repeats D (change f) :=
  fun w w' hw => ⟨rfl, hf w w' hw⟩

/-! A backend that does not cancel. -/

section Calm

variable (hcalm : env.backend.Calm)

include hcalm

/-- A calm backend is asked for a status without being seen, and does not cancel. -/
theorem spares_askStatus (path : Path) (depth : Backend.Depth) (options : Backend.Options) :
    Spares D (· ≠ .error .cancelled) (askStatus env path depth options) :=
  fun w => ⟨_, _, rfl, hcalm.status w.calls path depth options, fun _ _ => rfl⟩

/-- Asking about an external is not seen. -/
theorem spares_queryExternal (path : Path) :
    Spares D (fun _ => True) (queryExternal env path) := by
  refine .bind (spares_askStatus hcalm _ _ _) fun answer hanswer => ?_
  split
  · exact .pure trivial
  · exact absurd rfl hanswer
  · exact .pure trivial

/-- Asking a container for its externals is not seen. -/
theorem spares_isExternalOf (container : Resource) (path : Path) :
    Spares D (fun _ => True) (isExternalOf env container path) := by
  unfold isExternalOf
  split
  · exact .pure trivial
  refine .bind (spares_askStatus hcalm _ _ _) fun answer hanswer => ?_
  split
  · exact .pure trivial
  · exact absurd rfl hanswer
  · exact .pure trivial

/-- Asking whether the first entry is an external is not seen. -/
theorem spares_isExternalRoot (batch : Batch) (f : Finding) :
    Spares D (fun _ => True) (isExternalRoot env batch f) := by
  unfold isExternalRoot
  refine .ite ?_ (.pure trivial)
  split
  · exact .pure trivial
  refine .ite (.pure trivial) (.bind (.of_reads (reads_cached _)) fun known _ => ?_)
  exact .ite (.pure trivial) (spares_isExternalOf hcalm _ _)

omit hcalm in
/-- Committing a finding outside of the set is not seen. -/
theorem spares_commit (batch : Batch) {f : Finding} (hf : ¬D f.resource)
    (above : Option Record) (isExternal : Bool) :
    Spares D (fun _ => True) (commit env batch f above isExternal) := by
  intro w
  rcases run_commit env batch f above isExternal w with h | h | ⟨text, h⟩ <;> rw [h]
  · exact ⟨_, _, rfl, trivial, .refl D w⟩
  · exact ⟨_, _, rfl, trivial, .registered_of_not hf w⟩
  · have hput : Agree D (noted (recordOf batch f above isExternal text)
        (Url.decode (f.entry.url.getD "")) w) (described env batch f above isExternal text w) :=
      .registered_of_not hf _
    exact ⟨_, _, rfl, trivial, fun k hk => by rw [← hput k hk, cache_noted]⟩

/-- Recording a finding outside of the set is not seen. -/
theorem spares_recordFinding (batch : Batch) (isFirst : Bool) {f : Finding}
    (hf : ¬D f.resource) : Spares D (fun _ => True) (recordFinding env batch isFirst f) := by
  unfold recordFinding
  refine .bind (.of_reads (reads_cachedAbove _)) fun above _ => .ite ?_ (.ite ?_ (.ite ?_ ?_))
  · exact .bind (spares_register hf) fun _ _ => .pure trivial
  · refine .bind (spares_queryExternal hcalm _) fun fresh _ => ?_
    split
    next fresh =>
      exact spares_commit (f := { f with entry := fresh }) batch hf above true
    · exact .bind (spares_register hf) fun _ _ => .pure trivial
  · exact .bind (spares_isExternalRoot hcalm batch f) fun isExternal _ =>
      spares_commit batch hf above isExternal
  · exact spares_commit batch hf above false

end Calm

/-! ### Unversioned nodes -/

section Unversioned

variable (hD : Upward D)

include hD

/-- A status is delegated to the same record above. -/
theorem repeats_delegatedStatus (hr : D r) (status : Status) :
    Repeats D (delegatedStatus env r status) :=
  .bind (repeats_cachedAbove hD hr) fun _ => .pure _

/-- What a node outside of the set is registered as changes neither what is found first nor, since
the scan started elsewhere, what it mounts. -/
theorem follows_registerUnversioned {origin node : Resource} (horigin : D origin)
    (isLinked : Bool) {scan : Scan} (h : D node ∨ scan.first.isSome) :
    Follows D (fun s s' => s = s' ∧ s.first.isSome)
      (registerUnversioned env origin isLinked node scan)
      (registerUnversioned env origin isLinked node scan) := by
  by_cases hnode : D node
  · refine .next (repeats_cached horigin) fun known => ?_
    refine .next (repeats_cachedAbove hD horigin) fun aboveOrigin => ?_
    refine .next (repeats_cachedAbove hD hnode) fun above => ?_
    refine .next (repeats_register _) fun record => .pure ⟨rfl, ?_⟩
    cases scan.first <;> rfl
  · have hfirst := h.resolve_left hnode
    have hne : node ≠ origin := fun heq => hnode (heq ▸ horigin)
    have hscan : Spares D (· = scan) (registerUnversioned env origin isLinked node scan) := by
      refine .bind (.of_reads (reads_cached origin)) fun known _ => ?_
      refine .bind (.of_reads (reads_cachedAbove origin)) fun aboveOrigin _ => ?_
      refine .bind (.of_reads (reads_cachedAbove node)) fun above _ => ?_
      refine .bind (spares_register hnode) fun record _ => .pure ?_
      obtain ⟨first, mounts⟩ := scan
      obtain ⟨first, rfl⟩ := Option.isSome_iff_exists.1 hfirst
      simp [hne]
    exact .of_spares hscan hscan fun s s' hs hs' => ⟨hs.trans hs'.symm, hs ▸ hfirst⟩

/-- A visit finds the same, and something if it starts in the set or something was found before. -/
theorem follows_visit {origin node : Resource} (horigin : D origin) (isLinked : Bool)
    (levels : Nat) {scan : Scan} (h : D node ∨ scan.first.isSome) :
    Follows D (fun s s' => s = s' ∧ (scan.first.isSome → s.first.isSome))
      (visit env origin isLinked levels node scan)
      (visit env origin isLinked levels node scan) := by
  induction levels generalizing node scan with
  | zero =>
    rw [visit]
    refine .ite (fun _ => .pure ⟨rfl, id⟩) fun _ => ?_
    exact .nextOf (follows_registerUnversioned hD horigin isLinked h) fun scan hsome =>
      .pure ⟨rfl, fun _ => hsome⟩
  | succ levels ih =>
    rw [visit]
    refine .ite (fun _ => .pure ⟨rfl, id⟩) fun _ => ?_
    refine .nextOf (follows_registerUnversioned hD horigin isLinked h) fun scan hsome => ?_
    refine .ite (fun _ => ?_) fun _ => .pure ⟨rfl, fun _ => hsome⟩
    -- the members may lie outside of the set, but something was found before them
    have hmembers := Follows.foldlM (D := D) (P := fun scan : Scan => scan.first.isSome)
      (f := fun scan m => visit env origin isLinked levels m scan)
      (fun scan m hscan => (ih (Or.inr hscan)).mono fun s s' hs => ⟨hs.1, hs.2 hscan⟩)
      (env.host.members node) hsome
    exact hmembers.mono fun s s' hs => ⟨hs.1, fun _ => hs.2⟩

/-- A scan of a resource in the set gives the same record. -/
theorem repeats_scanUnversioned (hr : D r) (isLinked : Bool) (depth : Depth) :
    Repeats D (scanUnversioned env r isLinked depth) := by
  refine Follows.bind (follows_visit hD hr isLinked _ (Or.inl hr)) fun s s' hs => .pure ?_
  rw [hs.1]

end Unversioned

/-! ### Batches -/

/-- Deferring a folder leaves the answer. -/
@[simp]
theorem Progress.answer_defer (p : Progress) (f : Finding) : (p.defer f).answer = p.answer := by
  unfold Progress.defer
  simp only
  cases f.resource.parent? <;> rfl

section Batches

variable (hb : env.backend.Steady) (hcalm : env.backend.Calm)

include hb hcalm

/-- A steady and calm backend gives the same status, and does not cancel. -/
theorem follows_askStatus (path : Path) (depth : Backend.Depth) (options : Backend.Options) :
    Follows D (fun a b => a = b ∧ a ≠ .error .cancelled) (askStatus env path depth options)
      (askStatus env path depth options) :=
  fun w _ hw => ⟨⟨hb.status _ _ path depth options, hcalm.status w.calls path depth options⟩, hw⟩

/-- A steady and calm backend gives the same metadata, and does not cancel. -/
theorem follows_askInfo (reference : Backend.Reference) (depth : Backend.Depth) :
    Follows D (fun a b => a = b ∧ a ≠ .error .cancelled) (askInfo env reference depth)
      (askInfo env reference depth) :=
  fun w _ hw => ⟨⟨hb.info _ _ reference depth, hcalm.info w.calls reference depth⟩, hw⟩

/-- The same conflicts are fetched. -/
theorem repeats_fetchConflicts (path : Path) : Repeats D (fetchConflicts env path) := by
  refine .bindOf (follows_askInfo hb hcalm _ _) fun answer hanswer => ?_
  split
  · exact .pure _
  · exact absurd rfl hanswer
  · exact .pure _

/-- The same is told of an external. -/
theorem repeats_queryExternal (path : Path) : Repeats D (queryExternal env path) := by
  refine .bindOf (follows_askStatus hb hcalm _ _ _) fun answer hanswer => ?_
  split
  · exact .pure _
  · exact absurd rfl hanswer
  · exact .pure _

/-- A container reports the same externals. -/
theorem repeats_isExternalOf (container : Resource) (path : Path) :
    Repeats D (isExternalOf env container path) := by
  unfold isExternalOf
  split
  · exact .pure _
  refine .bindOf (follows_askStatus hb hcalm _ _ _) fun answer hanswer => ?_
  split
  · exact .pure _
  · exact absurd rfl hanswer
  · exact .pure _

/-- An entry is settled to be about the same. -/
theorem repeats_settle (batch : Batch) (project : Resource) (isFirst : Bool) (entry : Entry) :
    Repeats D (settle env batch project isFirst entry) := by
  rw [settle_eq]
  exact .ite (.bind (repeats_fetchConflicts hb hcalm _) fun conflicts => .pure _) (.pure _)

/-- The first entry is taken for an external alike. -/
theorem repeats_isExternalRoot (hD : Upward D) (batch : Batch) {f : Finding}
    (hf : D f.resource) : Repeats D (isExternalRoot env batch f) := by
  unfold isExternalRoot
  refine .ite ?_ (.pure _)
  split
  · exact .pure _
  next p hp =>
    refine .ite (.pure _) (.bind (repeats_cached (hD f.resource p hf hp)) fun known => ?_)
    exact .ite (.pure _) (repeats_isExternalOf hb hcalm _ _)

omit hb hcalm in
/-- The same text status is settled on. -/
theorem repeats_settledText (hD : Upward D) {f : Finding} (hf : D f.resource)
    (reported : Status) : Repeats D (settledText env f reported) := by
  unfold settledText
  simp only
  have hend : ∀ text : Status, Repeats D
      (if text = .new && f.kind = .dir &&
        env.disk.hasMetadata env.options.metadata f.entry.path then
        (pure .obstructed : Action Status)
      else pure text) := fun _ => .ite (.pure _) (.pure _)
  refine .ite (.bind (.pure _) hend) ?_
  exact .join (repeats_delegatedStatus hD hf _) (.pure _) hend

omit hb hcalm in
/-- A finding in the set is committed with the same record. -/
theorem repeats_commit (hD : Upward D) (batch : Batch) {f : Finding} (hf : D f.resource)
    (above : Option Record) (isExternal : Bool) :
    Repeats D (commit env batch f above isExternal) := by
  unfold commit
  simp only
  refine .ite (.pure _) (.ite (.bind (repeats_register _) fun _ => .pure _)
    (.ite (.bind (repeats_change fun _ _ hw => hw) fun _ => ?_) ?_))
  all_goals
    exact .bind (repeats_settledText hD hf _) fun _ => .bind (repeats_register _) fun _ => .pure _

/-- A finding in the set is recorded with the same record. -/
theorem repeats_recordFinding (hD : Upward D) (batch : Batch) (isFirst : Bool) {f : Finding}
    (hf : D f.resource) : Repeats D (recordFinding env batch isFirst f) := by
  unfold recordFinding
  refine .bind (repeats_cachedAbove hD hf) fun above => .ite ?_ (.ite ?_ ?_)
  · exact .bind (repeats_register _) fun _ => .pure _
  · refine .bind (repeats_queryExternal hb hcalm _) fun fresh => ?_
    split
    next fresh =>
      exact repeats_commit (f := { f with entry := fresh }) hD batch hf above true
    · exact .bind (repeats_register _) fun _ => .pure _
  · exact .join (repeats_isExternalRoot hb hcalm hD batch hf) (.pure _) fun isExternal =>
      repeats_commit hD batch hf above isExternal

variable (hD : Upward D)

include hD

/-- The answer comes out alike; the folders that are left for later may differ. -/
theorem follows_fillEntry {batch : Batch} (hbatch : D batch.resource) (project : Resource)
    (isFirst : Bool) (entry : Entry) {p p' : Progress} (hp : p.answer = p'.answer) :
    Follows D (fun q q' => q.answer = q'.answer) (fillEntry env batch project isFirst entry p)
      (fillEntry env batch project isFirst entry p') := by
  refine .next (repeats_settle hb hcalm batch project isFirst entry) fun finding => ?_
  cases finding with
  | none => exact .pure hp
  | some f =>
    -- Outside of the set the records may differ, but none of them is the answer.
    by_cases hf : D f.resource
    · have hend : ∀ (record : Option Record) {q q' : Progress}, q.answer = q'.answer →
          Follows D (fun q q' : Progress => q.answer = q'.answer)
            (pure (if f.resource = batch.resource then { q with answer := record <|> q.answer }
              else q))
            (pure (if f.resource = batch.resource then { q' with answer := record <|> q'.answer }
              else q')) := by
        intro record q q' hq
        refine .pure ?_
        split
        · simp only [hq]
        · exact hq
      refine .next (repeats_cached hf) fun known => ?_
      simp only
      split
      · exact hend _ hp
      · exact .next (repeats_recordFinding hb hcalm hD batch isFirst hf) fun record =>
          hend record (by simpa using hp)
    · have hne : f.resource ≠ batch.resource := fun heq => hf (heq ▸ hbatch)
      refine .of_spares (P := fun q => q.answer = p.answer) (S := fun q => q.answer = p'.answer)
        ?_ ?_ fun q q' hq hq' => hq.trans (hp.trans hq'.symm)
      all_goals
        refine .bind (.of_reads (reads_cached _)) fun known _ => ?_
        simp only
        split
        · exact .pure (by rw [if_neg hne])
        · refine .bind (spares_recordFinding hcalm batch isFirst hf) fun record _ => .pure ?_
          simp [hne]

/-- Entries are worked through to the same answer, if the answers before were the same. -/
theorem follows_fillEntries {batch : Batch} (hbatch : D batch.resource) (project : Resource)
    (isFirst : Bool) (entries : List Entry) {p p' : Progress} (hp : p.answer = p'.answer) :
    Follows D (fun q q' => q.answer = q'.answer)
      (fillEntries env batch project isFirst entries p)
      (fillEntries env batch project isFirst entries p') := by
  induction entries generalizing isFirst p p' with
  | nil => exact .pure hp
  | cons e es ih =>
    exact .bind (follows_fillEntry hb hcalm hD hbatch project isFirst e hp) fun q q' hq =>
      ih false hq

/-- A batch about a resource in the set is worked through to the same answer. -/
theorem follows_fill {batch : Batch} (hbatch : D batch.resource) :
    Follows D (fun found found' => found.1 = found'.1) (fill env batch) (fill env batch) := by
  unfold fill
  split
  · exact .pure rfl
  · exact .bind (follows_fillEntries hb hcalm hD hbatch _ true batch.entries rfl) fun p p' hp =>
      .pure hp

end Batches

/-! ### The switch

Only how deep the backend is asked, what is read at the start of a lookup and what is left for later
depend on whether there is a cache.
-/

/-- The same surroundings, with or without a cache. -/
def Env.withCache (env : Env) (enabled : Bool) : Env :=
  { env with options := { env.options with cacheEnabled := enabled } }

/-- A visit does not depend on whether there is a cache. -/
theorem visit_withCache (enabled : Bool) (origin : Resource) (isLinked : Bool) (levels : Nat) :
    visit (env.withCache enabled) origin isLinked levels = visit env origin isLinked levels := by
  induction levels with
  | zero => rfl
  | succ levels ih =>
    funext node scan
    rw [visit, visit]
    simp only [ih]
    rfl

/-- A scan does not depend on whether there is a cache. -/
theorem scanUnversioned_withCache (enabled : Bool) :
    scanUnversioned (env.withCache enabled) = scanUnversioned env := by
  funext r isLinked depth
  rw [scanUnversioned, scanUnversioned, visit_withCache]
  rfl

/-- Working through entries does not depend on whether there is a cache. -/
theorem fillEntries_withCache (enabled : Bool) (batch : Batch) (project : Resource)
    (isFirst : Bool) (entries : List Entry) (p : Progress) :
    fillEntries (env.withCache enabled) batch project isFirst entries p =
      fillEntries env batch project isFirst entries p := by
  induction entries generalizing isFirst p with
  | nil => rfl
  | cons e es ih =>
    rw [fillEntries, fillEntries]
    simp only [ih]
    rfl

/-- Working through a batch does not depend on whether there is a cache. -/
theorem fill_withCache (enabled : Bool) : fill (env.withCache enabled) = fill env := by
  funext batch
  unfold fill
  simp only [fillEntries_withCache]

/-! ### Lookups -/

/-- From worlds that agree, an action gives the same record, and worlds that agree. -/
def Answers (D : Resource → Prop) (x : Action Record) : Prop :=
  ∀ w w', Agree D w w' → ∃ record v v',
    x.run w = (.ok record, v) ∧ x.run w' = (.ok record, v') ∧ Agree D v v'

/-- What gives the same record ends alike. -/
theorem Answers.repeats {x : Action Record} (hx : Answers D x) : Repeats D x := by
  intro w w' hw
  obtain ⟨record, v, v', hrun, hrun', hv⟩ := hx w w' hw
  rw [hrun, hrun']
  exact ⟨rfl, hv⟩

/-- A record that is there already is the same. -/
theorem answers_pure (record : Record) : Answers D (pure record) :=
  fun w w' hw => ⟨record, w, w', rfl, rfl, hw⟩

/-- A load that succeeds gives its own record. -/
theorem run_orInvalid_of_ok {load : Action Record} {record : Record}
    (h : load.run w = (.ok record, w')) (r : Resource) :
    (orInvalid r load).run w = (.ok record, w') := by
  rw [orInvalid, run_tryCatch, h]

/-- A resource that a mishap leaves without a status is invalid. -/
theorem run_orInvalid_of_mishap {load : Action Record} {e : Error}
    (h : load.run w = (.error e, w')) (he : Mishap e) (r : Resource) :
    (orInvalid r load).run w = (.ok (Record.invalid r), w') := by
  obtain ⟨failure, rfl, hfailure⟩ := he
  rw [orInvalid, run_tryCatch, h]
  cases failure with
  | cancelled => exact absurd rfl hfailure
  | _ => rfl

/-- A load that ends alike gives the same record, be it the invalid one. -/
theorem answers_orInvalid {load : Action Record} (hload : Repeats D load) (r : Resource) :
    Answers D (orInvalid r load) := by
  intro w w' hw
  have hrun := hload w w' hw
  rcases hx : load.run w with ⟨e | a, v⟩ <;> rcases hy : load.run w' with ⟨e' | b, v'⟩ <;>
    rw [hx, hy] at hrun
  · obtain ⟨rfl, he, hv⟩ := hrun
    exact ⟨_, v, v', run_orInvalid_of_mishap hx he r, run_orInvalid_of_mishap hy he r, hv⟩
  · exact hrun.elim
  · exact hrun.elim
  · obtain ⟨rfl, hv⟩ := hrun
    exact ⟨a, v, v', run_orInvalid_of_ok hx r, run_orInvalid_of_ok hy r, hv⟩

/-- What is cached or else loaded is the same. -/
theorem answers_cachedOr {load : Action Record} (hload : Answers D load) (hr : D r) :
    Answers D (cachedOr env r load) := by
  intro w w' hw
  unfold cachedOr
  split
  · rw [run_bind_ok (run_cached r w), run_bind_ok (run_cached r w'), hw r hr]
    cases w'.state.cache.get? r with
    | some record => exact ⟨record, w, w', rfl, rfl, hw⟩
    | none => exact hload w w' hw
  · exact hload w w' hw

/-- What is not cached is loaded. -/
theorem run_cachedOr_of_not_cached {load : Action Record} (h : w.state.cache.get? r = none) :
    (cachedOr env r load).run w = load.run w := by
  unfold cachedOr
  split
  · rw [run_bind_ok (run_cached r w), h]
  · rfl

/-- A cached record is the answer. -/
theorem run_lookup_of_cached {record : Record} (henabled : env.options.cacheEnabled)
    (hr : env.isAccessible r) (hcached : w.state.cache.get? r = some record) (depth : Depth) :
    (lookup env r depth).run w = (.ok record, w) := by
  have hboth : (env.options.cacheEnabled && env.isAccessible r) = true := by
    rw [henabled, hr]
    rfl
  rw [lookup, cachedOr, if_pos hboth, run_bind_ok (run_cached r w), hcached]
  rfl

/-- What cannot be read has no status. -/
theorem run_lookup_of_inaccessible (hr : ¬env.isAccessible r) (depth : Depth) :
    (lookup env r depth).run w = (.ok (Record.invalid r), w) := by
  have hboth : ¬(env.options.cacheEnabled && env.isAccessible r) = true := by
    simp [hr]
  rw [lookup, cachedOr, if_neg hboth, reload]
  cases r.ancestors with
  | nil => rfl
  | cons parent above =>
    rw [reloadBelow, if_neg hr]
    rfl

section Lookups

variable (hb : env.backend.Steady) (hcalm : env.backend.Calm) (hD : Upward D)

include hb hcalm

/-- The same entries are answered. -/
theorem repeats_askEntries (path : Path) (depth : Backend.Depth) :
    Repeats D (askEntries env path depth) := by
  refine .bindOf (follows_askStatus hb hcalm _ _ _) fun answer hanswer => ?_
  split
  · exact .pure _
  · exact .pure _
  · exact .pure _
  · exact .pure _
  next failure _ _ _ => exact .throw ⟨failure, rfl, fun h => hanswer (h ▸ rfl)⟩

omit hb hcalm in
/-- Whether folders are left for later is not seen. -/
theorem spares_leave {c : Prop} [Decidable c] (job : FetchJob) (record : Option Record) :
    Spares D (· = record) (if c then do
      modify fun w => { w with jobs := w.jobs ++ [job] }
      return record
    else return record) :=
  .ite (fun _ => ⟨_, _, rfl, rfl, fun _ _ => rfl⟩) (.pure rfl)

include hD

/-- The backend is asked the same with and without a cache, if it is asked equally deep. -/
theorem follows_loadVersioned (hr : D r) (parent : Resource) (binding : Binding)
    (enabled : Bool) {depth depth' : Depth}
    (hdepth : ∀ isRoot isContainer, backendDepth (env.withCache enabled) isRoot isContainer depth' =
      backendDepth env isRoot isContainer depth) :
    Follows D (· = ·) (loadVersioned env r parent binding depth)
      (loadVersioned (env.withCache enabled) r parent binding depth') := by
  have hhost : (env.withCache enabled).host = env.host := rfl
  have hask : askEntries (env.withCache enabled) = askEntries env := rfl
  unfold loadVersioned
  simp only [hhost, hask, hdepth, fill_withCache]
  split
  · refine .next (repeats_askEntries hb hcalm _ _) fun entries => ?_
    refine Follows.bind (follows_fill hb hcalm hD hr) fun found found' hfound => ?_
    obtain ⟨record, deferred⟩ := found
    obtain ⟨record', deferred'⟩ := found'
    obtain rfl : record = record' := hfound
    have hensure : Repeats D
        (change fun s => { s with
          cache := s.cache.ensureBucket (if r.isContainer then r else parent) }) := by
      refine repeats_change fun w w' hw k hk => ?_
      rw [Cache.get?_ensureBucket, Cache.get?_ensureBucket, hw k hk]
    have hleave : ∀ {x y : Action (Option Record)}, Spares D (· = record) x →
        Spares D (· = record) y → Follows D (· = ·) x y := fun hx hy =>
      .of_spares hx hy fun _ _ ha hb => ha.trans hb.symm
    refine Follows.ite (fun _ => .next hensure fun _ => ?_) fun _ => ?_
    · exact hleave (spares_leave _ _) (spares_leave _ _)
    · exact hleave (spares_leave _ _) (spares_leave _ _)
  · exact .pure rfl

/-- The same is loaded from the backend. -/
theorem repeats_loadVersioned (hr : D r) (parent : Resource) (binding : Binding)
    (depth : Depth) : Repeats D (loadVersioned env r parent binding depth) :=
  follows_loadVersioned hb hcalm hD hr parent binding env.options.cacheEnabled fun _ _ => rfl

/-- The same is known of a resource, if the same is known of its parent. -/
theorem repeats_loadKnown {lookupParent : Action Record} (hparent : Repeats D lookupParent)
    (hr : D r) (parent : Resource) (binding : Binding) (depth : Depth) :
    Repeats D (loadKnown env lookupParent r parent binding depth) := by
  have hload : ∀ isVersioned : Bool, Repeats D
      (if isVersioned then loadVersioned env r parent binding depth else pure none) := fun _ =>
    .ite (repeats_loadVersioned hb hcalm hD hr parent binding depth) (.pure _)
  unfold loadKnown
  simp only
  refine .ite (.ite (.bind (.pure _) hload) (.bind hparent fun above => ?_)) (.pure _)
  exact .bind (.pure _) hload

omit hb hcalm in
/-- What is known or else scanned is the same. -/
theorem repeats_orScan (hr : D r) (depth : Depth) (known : Option Record) :
    Repeats D (orScan env r depth known) := by
  cases known with
  | none => exact repeats_scanUnversioned hD hr _ depth
  | some record => exact .ite (repeats_scanUnversioned hD hr _ depth) (.pure _)

/-- The same is loaded for a resource, if the same is for its parent. -/
theorem repeats_loadSubtree {lookupParent : Action Record} (hparent : Repeats D lookupParent)
    (hr : D r) (parent : Resource) (depth : Depth) :
    Repeats D (loadSubtree env lookupParent r parent depth) := by
  have hload : ∀ binding depth, Repeats D (do
      orScan env r depth (← loadKnown env lookupParent r parent binding depth)) :=
    fun binding depth =>
      .bind (repeats_loadKnown hb hcalm hD hparent hr parent binding depth)
        (repeats_orScan hD hr depth)
  unfold loadSubtree
  split
  · exact .pure _
  refine .ite (.pure _) (.ite (.bind (repeats_change fun _ _ _ _ _ => rfl) fun _ => ?_) ?_)
  · exact hload _ _
  · exact hload _ _

/-- A reload below ancestors in the set gives the same record. -/
theorem answers_reloadBelow {above : List Resource} (habove : ∀ a ∈ above, D a) (hr : D r)
    (depth : Depth) : Answers D (reloadBelow env above r depth) := by
  induction above generalizing r depth with
  | nil => exact answers_pure _
  | cons parent above ih =>
    have hparent : D parent := habove parent List.mem_cons_self
    have hload := ih (fun a ha => habove a (List.mem_cons_of_mem parent ha)) hparent .one
    unfold reloadBelow
    split
    · exact answers_orInvalid (repeats_loadSubtree hb hcalm hD
        (answers_cachedOr hload hparent).repeats hr parent depth) r
    · exact answers_pure _

/-- A reload of a resource in the set gives the same record. -/
theorem answers_reload (hr : D r) (depth : Depth) : Answers D (reload env r depth) :=
  answers_reloadBelow hb hcalm hD
    (fun _ ha => hD.of_mem_lineage hr (List.mem_cons_of_mem r ha)) hr depth

/-- **A lookup answers, and alike from worlds that agree** on the resource and on what is above it;
the worlds that it leaves agree there again. -/
theorem answers_lookup (hr : D r) (depth : Depth) : Answers D (lookup env r depth) :=
  answers_cachedOr (answers_reload hb hcalm hD hr depth) hr

end Lookups

end Lookup
end StatusCache
