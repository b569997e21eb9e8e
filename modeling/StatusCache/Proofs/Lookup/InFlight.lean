/-
# Lookups in flight

While the backend is asked about a resource, others may change the shared state. So a load has two
halves: the backend is asked (`askKnown`), and its answer is committed (`commitAnswer`).
`reloadAround` lets something happen in between; where nothing does, it is a load
(`reloadAround_pure`).

The second half does not ask whether its answer is still good. Whatever has happened in between, the
record that a load answers with is cached in the end (`ensures_reloadAround`): the entries of the
answer are recorded as they come (`records_recordFinding`), and a scan registers the resource that it
starts from, and never again what it has below (`ensures_visit`).

Whether it is cached or not, the answer of a lookup is about the resource (`ensures_lookup_about`).
-/

import StatusCache.Proofs.Host
import StatusCache.Proofs.Lookup.Agree
import StatusCache.Proofs.Lookup.Scan

namespace StatusCache

namespace Lookup

/-! ### The halves of a load -/

section Halves

variable (env : Env)

/-- Asks the backend for a resource, and says what the answer is about. -/
def askVersioned (r parent : Resource) (binding : Binding) (depth : Depth) :
    Action (Option Batch) := do
  let target := if r.isContainer then r else parent
  match env.host.location? target, env.host.location? r with
  | some place, some requested =>
    let isRoot := place.components.length ≤ binding.location.components.length
    let entries ← askEntries env place (backendDepth env isRoot r.isContainer depth)
    return some
      { resource := r
        target := target
        entries := entries
        desiredUrl := Url.append binding.node.url target.projectPath
        root := binding.location
        requested := requested }
  | _, _ => return none

/-- Commits an answer of the backend, if there is one. -/
def commitAnswer (depth : Depth) : Option Batch → Action (Option Record)
  | none => return none
  | some batch => do
    let (record, deferred) ← fill env batch
    if batch.entries.length = 1 && batch.target.isContainer then
      change fun s => { s with cache := s.cache.ensureBucket batch.target }
    if record.isSome && deferred.length > 1 && depth ≠ .zero && env.options.cacheEnabled then
      modify fun w => { w with jobs := w.jobs ++ [{ target := batch.target, entries := deferred }] }
    return record

/-- Asks the backend for a resource, where it may know something about it. -/
def askKnown (lookupParent : Action Record) (r parent : Resource) (binding : Binding)
    (depth : Depth) : Action (Option Batch) := do
  let belowRoot := parent.kind = .root
  if (belowRoot || env.host.isPresent parent) && !env.host.isLinked r then
    let isVersioned ←
      if belowRoot then pure true
      else do
        let above ← lookupParent
        pure (mayHoldVersioned above)
    if isVersioned then askVersioned env r parent binding depth else return none
  else return none

/-- Loads a resource, while something else happens after the backend has answered. -/
def loadSubtreeAround (meanwhile : Action Unit) (lookupParent : Action Record)
    (r parent : Resource) (depth : Depth) : Action Record := do
  match r.project?.bind env.host.binding? with
  | none => return Record.invalid r
  | some binding =>
    if env.host.isInternal r then return Record.invalid r
    else
      if !env.options.cacheEnabled then change fun s => { s with cache := {} }
      let depth := if env.options.cacheEnabled then depth else .zero
      let answer ← askKnown env lookupParent r parent binding depth
      meanwhile
      orScan env r depth (← commitAnswer env depth answer)

/-- Loads a resource and its children to a depth, while something else happens after the backend has
answered for the resource and before the answer is committed. -/
def reloadAround (meanwhile : Action Unit) (r : Resource) (depth : Depth) : Action Record :=
  match r.ancestors with
  | [] => return Record.invalid r
  | parent :: above =>
    if env.isAccessible r then
      orInvalid r (loadSubtreeAround env meanwhile
        (cachedOr env parent (reloadBelow env above parent .one)) r parent depth)
    else return Record.invalid r

/-- A load from the backend asks first and commits then. -/
theorem loadVersioned_eq (r parent : Resource) (binding : Binding) (depth : Depth) :
    loadVersioned env r parent binding depth =
      askVersioned env r parent binding depth >>= commitAnswer env depth := by
  unfold loadVersioned askVersioned
  simp only
  generalize (if r.isContainer then r else parent) = target
  cases env.host.location? target with
  | none => rfl
  | some place =>
    cases env.host.location? r with
    | none => rfl
    | some requested => simp only [bind_assoc, pure_bind, commitAnswer]

/-- What is known is asked for first and committed then. -/
theorem loadKnown_eq (lookupParent : Action Record) (r parent : Resource) (binding : Binding)
    (depth : Depth) : loadKnown env lookupParent r parent binding depth =
      askKnown env lookupParent r parent binding depth >>= commitAnswer env depth := by
  have hload : ∀ isVersioned : Bool,
      (if isVersioned then loadVersioned env r parent binding depth else pure none) =
        (if isVersioned then askVersioned env r parent binding depth else pure none) >>=
          commitAnswer env depth := by
    intro isVersioned
    split
    · exact loadVersioned_eq env r parent binding depth
    · rfl
  unfold loadKnown askKnown
  simp only [hload]
  split
  · split <;> simp only [bind_assoc, pure_bind]
  · rfl

/-- **Where nothing happens in between, this is a load.** -/
theorem reloadAround_pure (r : Resource) (depth : Depth) :
    reloadAround env (pure ()) r depth = reload env r depth := by
  have hload : ∀ lookupParent parent, loadSubtreeAround env (pure ()) lookupParent r parent depth =
      loadSubtree env lookupParent r parent depth := by
    intro lookupParent parent
    unfold loadSubtreeAround loadSubtree
    cases r.project?.bind env.host.binding? with
    | none => rfl
    | some binding => simp only [loadKnown_eq, bind_assoc, pure_bind]
  unfold reloadAround reload
  split
  next h => rw [h, reloadBelow]
  next h => rw [h, reloadBelow, hload]

end Halves

variable {env : Env} {r node origin : Resource} {α : Type} {w : World}

/-! ### Recording a finding -/

/-- The record that a resource is answered with, if there is one, is cached. -/
def Backed (r : Resource) (answer : Option Record) (w : World) : Prop :=
  ∀ record ∈ answer, w.state.cache.get? r = some record

/-- Where there is no answer, nothing has to be cached. -/
theorem Backed.none (r : Resource) (w : World) : Backed r none w := by simp [Backed]

/-- The action writes no record but that of one resource, and what it answers is that record. -/
def Records (r : Resource) (x : Action (Option Record)) : Prop :=
  ∀ w answer w', x.run w = (.ok answer, w') →
    Agree (· ≠ r) w w' ∧ (r.parent?.isSome → Backed r answer w')

/-- What was registered is cached as it was committed. -/
theorem get?_registered (env : Env) (record : Record) (w : World)
    (hp : record.resource.parent?.isSome) :
    (registered env record w).state.cache.get? record.resource = some (env.committed record) := by
  rw [cache_registered, Cache.get?_put, resource_committed]
  exact if_pos ⟨rfl, hp⟩

namespace Records

/-- An action that ends with a cached answer, and spares the other resources, records. -/
theorem of_run {x : Action (Option Record)}
    (h : ∀ w, ∃ answer w', x.run w = (.ok answer, w') ∧ Agree (· ≠ r) w w' ∧
      (r.parent?.isSome → Backed r answer w')) : Records r x := by
  intro w answer w' hrun
  obtain ⟨answer', v, hrun', hrecords⟩ := h w
  rw [hrun] at hrun'
  cases hrun'
  exact hrecords

/-- Asking before that makes no difference. -/
theorem after {x : Action α} {f : α → Action (Option Record)} (hx : Asks x)
    (hf : ∀ a, Records r (f a)) : Records r (x >>= f) := by
  intro w answer w' hrun
  obtain ⟨calls, hcalls⟩ := hx w
  rw [run_bind] at hrun
  rcases hfirst : x.run w with ⟨e | a, v⟩ <;> rw [hfirst] at hrun hcalls
  · cases hrun
  · have hstate : v.state = w.state := by rw [show v = _ from hcalls]
    obtain ⟨hothers, hbacked⟩ := hf a v answer w' hrun
    exact ⟨fun k hk => hstate ▸ hothers k hk, hbacked⟩

/-- A choice records if both branches do. -/
theorem ite {c : Prop} [Decidable c] {x y : Action (Option Record)} (hx : Records r x)
    (hy : Records r y) : Records r (if c then x else y) := by
  split
  · exact hx
  · exact hy

end Records

/-- A plain record that is written without an answer, or as one. -/
theorem records_register (env : Env) (record : Record) (hr : record.resource = r)
    (answers : Bool) : Records r (do
      let record ← register env record
      return if answers then some record else none) := by
  subst hr
  refine .of_run fun w => ⟨_, _, run_bind_ok (run_register env record w),
    .registered_of_not (fun h => h rfl) w, fun hp => ?_⟩
  cases answers with
  | true =>
    rintro _ ⟨⟩
    exact get?_registered env record w hp
  | false => exact .none _ _

/-- Committing a finding records that finding alone. -/
theorem records_commit (batch : Batch) (f : Finding) (above : Option Record)
    (isExternal : Bool) : Records f.resource (commit env batch f above isExternal) := by
  refine .of_run fun w => ?_
  rcases run_commit env batch f above isExternal w with h | h | ⟨text, h⟩
  · exact ⟨_, _, h, .refl _ w, fun _ => .none _ _⟩
  · exact ⟨_, _, h, .registered_of_not (fun h => h rfl) w, fun _ => .none _ _⟩
  · let found := recordOf batch f above isExternal text
    have hnoted : Agree (· ≠ f.resource) w (noted found (Url.decode (f.entry.url.getD "")) w) :=
      fun k _ => by rw [cache_noted]
    refine ⟨_, _, h, hnoted.trans (.registered_of_not (fun h => h rfl) _), fun hp => ?_⟩
    rintro _ ⟨⟩
    exact get?_registered env found _ hp

/-- **What a finding is recorded as is cached**, and no other record is written. -/
theorem records_recordFinding (batch : Batch) (isFirst : Bool) (f : Finding) :
    Records f.resource (recordFinding env batch isFirst f) := by
  refine .after (reads_cachedAbove _).asks fun above => .ite ?_ (.ite ?_ ?_)
  · exact records_register env (.bare f.resource .ignored { forbidden := true }) rfl false
  · refine .after (asks_queryExternal _) fun fresh => ?_
    split
    · exact records_commit batch _ above true
    · exact records_register env (.bare f.resource .ignored { external := true }) rfl true
  · have hcommit : ∀ isExternal, Records f.resource (commit env batch f above isExternal) :=
      records_commit batch f above
    exact .ite (.after (asks_isExternalRoot batch f) hcommit) (.after (.pure false) hcommit)

/-! ### Committing an answer -/

/-- Asking leaves what is cached. -/
theorem ensures_of_asks {x : Action α} (hx : Asks x) (answer : Option Record) :
    Ensures (Backed r answer) (fun _ => Backed r answer) x := by
  intro w a w' hw hrun
  obtain ⟨calls, hcalls⟩ := hx w
  rw [hrun] at hcalls
  obtain rfl : w' = _ := hcalls
  exact hw

section Answers

variable {batch : Batch} (hr : batch.resource.parent?.isSome)

include hr

/-- What has no record yet has not been answered with. -/
theorem ensures_recordFinding {p : Progress} {f : Finding} (hw : Backed batch.resource p.answer w)
    (hnew : w.state.cache.get? f.resource = none) (isFirst : Bool) :
    Ensures (· = w) (fun answer => Backed batch.resource
      (if f.resource = batch.resource then answer <|> p.answer else p.answer))
      (recordFinding env batch isFirst f) := by
  rintro _ answer w' rfl hrun
  obtain ⟨hothers, hbacked⟩ := records_recordFinding batch isFirst f _ answer w' hrun
  split
  next heq =>
    rw [heq] at hbacked hnew
    have hfirst : p.answer = none := Option.eq_none_iff_forall_not_mem.2 fun record hrecord => by
      rw [hw record hrecord] at hnew
      cases hnew
    rw [hfirst]
    simpa using hbacked hr
  next hne =>
    intro record hrecord
    rw [← hothers _ (Ne.symm hne)]
    exact hw record hrecord

/-- After an entry the answer so far is cached, if it was before. -/
theorem ensures_fillEntry (project : Resource) (isFirst : Bool) (entry : Entry) (p : Progress) :
    Ensures (Backed batch.resource p.answer) (fun p' => Backed batch.resource p'.answer)
      (fillEntry env batch project isFirst entry p) := by
  refine .bind (ensures_of_asks (asks_settle batch project isFirst entry) _) fun finding => ?_
  cases finding with
  | none => exact .pure fun _ h => h
  | some f =>
    intro w p' w' hw hrun
    rw [run_bind_ok (run_cached f.resource w)] at hrun
    cases hcached : w.state.cache.get? f.resource with
    | some record =>
      rw [hcached] at hrun
      cases hrun
      split
      next heq =>
        rintro _ ⟨⟩
        exact heq ▸ hcached
      · exact hw
    | none =>
      rw [hcached] at hrun
      simp only [pure_bind] at hrun
      refine Ensures.bind (R := fun p' => Backed batch.resource p'.answer)
        (ensures_recordFinding hr hw hcached isFirst)
        (fun answer => .pure fun v hv => ?_) w p' w' rfl hrun
      split at hv
      next heq => simpa [heq] using hv
      next hne => simpa [hne] using hv

/-- After several entries the answer so far is cached, if it was before. -/
theorem ensures_fillEntries (project : Resource) (isFirst : Bool) (entries : List Entry)
    (p : Progress) :
    Ensures (Backed batch.resource p.answer) (fun p' => Backed batch.resource p'.answer)
      (fillEntries env batch project isFirst entries p) := by
  induction entries generalizing isFirst p with
  | nil => exact .pure fun _ h => h
  | cons e es ih =>
    exact .bind (ensures_fillEntry hr project isFirst e p) fun p => ih false p

/-- The answer of a batch is cached. -/
theorem ensures_fill : Ensures (fun _ => True) (fun found => Backed batch.resource found.1)
    (fill env batch) := by
  unfold fill
  split
  · exact .pure fun w _ => .none _ w
  · refine .bind (.mono (ensures_fillEntries hr _ true batch.entries {}) ?_ fun _ _ h => h) ?_
    · exact fun w _ => .none _ w
    · exact fun p => .pure fun _ h => h

end Answers

/-- **The record that an answer of the backend leads to is cached**, whatever was cached before. -/
theorem ensures_commitAnswer (hr : r.parent?.isSome) (depth : Depth) {answer : Option Batch}
    (hanswer : ∀ batch ∈ answer, batch.resource = r) :
    Ensures (fun _ => True) (Backed r) (commitAnswer env depth answer) := by
  cases answer with
  | none => exact .pure fun w _ => .none _ w
  | some batch =>
    obtain rfl := hanswer batch rfl
    refine .bind (ensures_fill hr) fun (found, deferred) => .optional ?_ (.optional ?_ ?_)
    · refine .modify fun w hw record hrecord => ?_
      rw [Cache.get?_ensureBucket]
      exact hw record hrecord
    · exact .modify fun _ h => h
    · exact .pure fun _ h => h

/-- An answer is about the resource that is asked for. -/
theorem ensures_askKnown (lookupParent : Action Record) (r parent : Resource) (binding : Binding)
    (depth : Depth) :
    Ensures (fun _ => True) (fun answer _ => ∀ batch ∈ answer, batch.resource = r)
      (askKnown env lookupParent r parent binding depth) := by
  have hnone : Ensures (fun _ : World => True) (fun answer _ => ∀ batch ∈ answer, batch.resource = r)
      (pure none : Action (Option Batch)) := .pure fun _ _ => by simp
  have hask : ∀ isVersioned : Bool,
      Ensures (fun _ : World => True) (fun answer _ => ∀ batch ∈ answer, batch.resource = r)
        (if isVersioned then askVersioned env r parent binding depth else pure none) := by
    refine fun isVersioned => .ite ?_ hnone
    unfold askVersioned
    simp only
    split
    · exact .bind (.trivial _) fun entries => .pure fun _ _ => by simp
    · exact hnone
  unfold askKnown
  simp only
  refine .ite (.ite (.bind (.trivial _) hask) (.bind (.trivial _) fun above => ?_)) hnone
  exact .bind (.trivial _) hask

/-! ### Scans -/

/-- What registering a node keeps, a visit keeps, and it ensures what registering its own node does.
The nodes below are the members, and their members. -/
theorem ensures_visit {P : World → Prop} {Q : Scan → World → Prop} {M : Resource → Prop}
    {isLinked : Bool} {scan : Scan}
    (hstep : ∀ m, M m → ∀ scan, Ensures (Q scan) Q (registerUnversioned env origin isLinked m scan))
    (hmembers : ∀ m, M m → m.isContainer → ∀ m' ∈ env.host.members m, M m')
    (hbelow : node.isContainer → ∀ m ∈ env.host.members node, M m)
    (hpass : env.passesOver node → ∀ w, P w → Q scan w)
    (hregister : Ensures P Q (registerUnversioned env origin isLinked node scan)) (levels : Nat) :
    Ensures P Q (visit env origin isLinked levels node scan) := by
  induction levels generalizing node scan P with
  | zero =>
    rw [visit]
    split
    next h => exact .pure (hpass h)
    · exact .bind hregister fun _ => .pure fun _ h => h
  | succ levels ih =>
    rw [visit]
    split
    next h => exact .pure (hpass h)
    refine .bind hregister fun scan => ?_
    simp only
    split
    next hcontainer =>
      refine .foldlM (fun scan m hm => ?_) scan
      have hnode := hbelow hcontainer m hm
      exact ih (hmembers m hnode) (fun _ _ h => h) (hstep m hnode scan)
    · exact .pure fun _ h => h

/-- What a scan answers is about the resource that it starts from. -/
theorem ensures_scan_resource (r : Resource) (isLinked : Bool) (depth : Depth) :
    Ensures (fun _ => True) (fun record (_ : World) => record.resource = r)
      (scanUnversioned env r isLinked depth) := by
  by_cases hpass : env.passesOver r
  · intro w record w' _ hrun
    rw [run_scanUnversioned_of_passesOver hpass] at hrun
    cases hrun
    rfl
  let Q (scan : Scan) (_ : World) : Prop := ∃ record, scan.first = some record ∧ record.resource = r
  have hstep : ∀ m scan, Ensures (Q scan) Q (registerUnversioned env r isLinked m scan) := by
    rintro m scan w scan' w' ⟨record, hknown, hrecord⟩ hrun
    obtain ⟨found, hfirst, hrun'⟩ := run_registerUnversioned env r isLinked m scan w
    rw [hrun'] at hrun
    cases hrun
    exact ⟨record, by rw [hfirst, hknown]; rfl, hrecord⟩
  have hself : Ensures (fun _ => True) Q (registerUnversioned env r isLinked r {}) := by
    intro w scan' w' _ hrun
    obtain ⟨found, hfirst, hrun'⟩ := run_registerUnversioned env r isLinked r {} w
    rw [hrun'] at hrun
    cases hrun
    exact ⟨_, hfirst, resource_committed _ _⟩
  refine .bind (ensures_visit (fun m _ => hstep m) (fun _ _ _ _ _ => trivial)
    (fun _ _ _ => trivial) (fun h => absurd h hpass) hself _) fun scan => ?_
  refine .pure fun w ⟨record, hfirst, hrecord⟩ => ?_
  rw [hfirst]
  exact hrecord

/-- A scan has found something, and the first record that it found is that of its resource. -/
def Found (r : Resource) (scan : Scan) (w : World) : Prop :=
  scan.first.isSome ∧ w.state.cache.get? r = scan.first

/-- A scan finds its own resource first. -/
theorem ensures_registerUnversioned_self (hr : r.parent?.isSome) (isLinked : Bool) :
    Ensures (fun _ => True) (Found r) (registerUnversioned env r isLinked r {}) := by
  intro w scan' w' _ hrun
  obtain ⟨scan, hfirst, hrun'⟩ := run_registerUnversioned env r isLinked r {} w
  rw [hrun] at hrun'
  cases hrun'
  have hcached := get?_registered env (scanned env r isLinked r {} w) w hr
  exact ⟨by rw [hfirst]; rfl, by rw [hfirst]; exact hcached⟩

/-- Further nodes leave what a scan has found of its resource. -/
theorem ensures_registerUnversioned (hne : r ≠ node) (isLinked : Bool) (scan : Scan) :
    Ensures (Found r scan) (Found r) (registerUnversioned env origin isLinked node scan) := by
  rintro w scan' w' ⟨hsome, hcached⟩ hrun
  obtain ⟨scan'', hfirst, hrun'⟩ := run_registerUnversioned env origin isLinked node scan w
  rw [hrun] at hrun'
  cases hrun'
  have hkept : scan'.first = scan.first := by
    obtain ⟨record, hrecord⟩ := Option.isSome_iff_exists.1 hsome
    rw [hfirst, hrecord]
    rfl
  have hothers : Agree (· ≠ node) w (registered env (scanned env origin isLinked node scan w) w) :=
    .registered_of_not (fun h => h rfl) w
  rw [Found, hkept, ← hothers r hne]
  exact ⟨hsome, hcached⟩

/-- The answer for a resource stands: it is cached, unless nothing could be said. -/
def Stands (r : Resource) (record : Record) (w : World) : Prop :=
  record.isInvalid ∨ w.state.cache.get? r = some record

/-- Where nothing could be said, the answer stands. -/
theorem Stands.invalid (r : Resource) (w : World) : Stands r (Record.invalid r) w := Or.inl rfl

/-- **What a scan answers with is cached**, where it does not pass over the resource, and the host does
not hold that below itself. -/
theorem ensures_scan_cached (hr : r.parent?.isSome) (hself : ¬env.host.Holds r r)
    (hpass : ¬env.passesOver r) (isLinked : Bool) (depth : Depth) :
    Ensures (fun _ => True) (fun record w => w.state.cache.get? r = some record)
      (scanUnversioned env r isLinked depth) := by
  -- What is visited further down is another resource, since the host does not hold this one there.
  have hother : ∀ m, env.host.Holds r m → ∀ scan,
      Ensures (Found r scan) (Found r) (registerUnversioned env r isLinked m scan) :=
    fun m hm => ensures_registerUnversioned (fun heq => hself (by rwa [← heq] at hm)) isLinked
  have hvisit := ensures_visit hother (fun m hm hc m' hm' => hm.tail ⟨hc, hm'⟩)
    (fun hc m hm => .single ⟨hc, hm⟩) (fun h => absurd h hpass)
    (ensures_registerUnversioned_self hr isLinked)
  refine .bind (hvisit _) fun scan => .pure fun w hw => ?_
  obtain ⟨record, hrecord⟩ := Option.isSome_iff_exists.1 hw.1
  rw [hw.2, hrecord]
  rfl

/-- What a scan answers with is cached, or it has passed over the resource. -/
theorem ensures_scanUnversioned (hr : r.parent?.isSome) (hself : ¬env.host.Holds r r)
    (isLinked : Bool) (depth : Depth) :
    Ensures (fun _ => True) (Stands r) (scanUnversioned env r isLinked depth) := by
  by_cases hpass : env.passesOver r
  · intro w record w' _ hrun
    rw [run_scanUnversioned_of_passesOver hpass] at hrun
    cases hrun
    exact .invalid r w
  · exact (ensures_scan_cached hr hself hpass isLinked depth).mono (fun _ h => h)
      fun _ _ => Or.inr

/-! ### Loads -/

section Loads

variable {Q : Record → World → Prop} (hinvalid : ∀ w, Q (Record.invalid r) w)
  (hcached : ∀ record w, w.state.cache.get? r = some record → Q record w)
  (hscan : r.parent?.isSome → ∀ isLinked depth,
    Ensures (fun _ => True) Q (scanUnversioned env r isLinked depth))

include hcached hscan in
/-- The answer stands, be it known or scanned. -/
theorem ensures_orScan (hr : r.parent?.isSome) (depth : Depth) (known : Option Record) :
    Ensures (Backed r known) Q (orScan env r depth known) := by
  have hscan : Ensures (Backed r known) Q (scanUnversioned env r (env.host.isLinked r) depth) :=
    (hscan hr _ depth).mono (fun _ _ => trivial) fun _ _ h => h
  cases known with
  | none => exact hscan
  | some record => exact .ite hscan (.pure fun w hw => hcached record w (hw record rfl))

include hinvalid in
/-- A load that fails leaves the resource invalid. -/
theorem ensures_orInvalid {load : Action Record} (hload : Ensures (fun _ => True) Q load) :
    Ensures (fun _ => True) Q (orInvalid r load) := by
  refine .tryCatch hload fun e => ?_
  split
  · exact .throw _
  · exact .pure fun w _ => hinvalid w
  · exact .throw _

include hinvalid hcached hscan

/-- The answer of a load stands, whatever happens between request and commit. -/
theorem ensures_loadSubtreeAround (hr : r.parent?.isSome) (meanwhile : Action Unit)
    (lookupParent : Action Record) (parent : Resource) (depth : Depth) :
    Ensures (fun _ => True) Q
      (loadSubtreeAround env meanwhile lookupParent r parent depth) := by
  have hstop : Ensures (fun _ => True) Q (pure (Record.invalid r) : Action Record) :=
    .pure fun w _ => hinvalid w
  unfold loadSubtreeAround
  split
  · exact hstop
  next binding _ =>
    refine .ite hstop (.optional (.trivial _) ?_)
    refine .bind (ensures_askKnown lookupParent r parent binding _) fun answer => ?_
    -- What happens in between may change anything but the answer itself.
    intro w record w' hanswer hrun
    refine Ensures.bind (P := fun _ => True) (.trivial meanwhile) (fun _ => ?_) w record w' trivial
      hrun
    exact .bind (ensures_commitAnswer hr _ hanswer) fun known =>
      ensures_orScan hcached hscan hr _ known

/-- What holds of every cached record, every scan and every invalid resource holds of what a load
ends with. -/
theorem ensures_reloadAround_of (meanwhile : Action Unit) (depth : Depth) :
    Ensures (fun _ => True) Q (reloadAround env meanwhile r depth) := by
  have hstop : Ensures (fun _ => True) Q (pure (Record.invalid r) : Action Record) :=
    .pure fun w _ => hinvalid w
  unfold reloadAround
  cases hp : r.parent? with
  | none =>
    rw [Resource.ancestors_of_parent?_none hp]
    exact hstop
  | some parent =>
    rw [Resource.ancestors_of_parent? hp]
    have hr : r.parent?.isSome := by rw [hp]; rfl
    exact .ite (ensures_orInvalid hinvalid
      (ensures_loadSubtreeAround hinvalid hcached hscan hr meanwhile _ parent depth)) hstop

/-- What holds of every cached record, every scan and every invalid resource holds of what a lookup
ends with. -/
theorem ensures_lookup_of (depth : Depth) : Ensures (fun _ => True) Q (lookup env r depth) := by
  have hreload : Ensures (fun _ => True) Q (reload env r depth) := by
    rw [← reloadAround_pure]
    exact ensures_reloadAround_of hinvalid hcached hscan _ depth
  refine .ite ?_ hreload
  intro w record w' _ hrun
  rw [run_bind_ok (run_cached r w)] at hrun
  cases hknown : w.state.cache.get? r with
  | some known =>
    rw [hknown] at hrun
    cases hrun
    exact hcached _ _ hknown
  | none =>
    rw [hknown] at hrun
    exact hreload w record w' trivial hrun

end Loads

/-- **A load ends with its answer cached**, whatever has happened to the cache while it was in
flight, unless nothing could be said about the resource. -/
theorem ensures_reloadAround (hself : ¬env.host.Holds r r) (meanwhile : Action Unit)
    (depth : Depth) :
    Ensures (fun _ => True) (Stands r) (reloadAround env meanwhile r depth) :=
  ensures_reloadAround_of (.invalid r) (fun _ _ h => .inr h)
    (fun hr isLinked depth => ensures_scanUnversioned hr hself isLinked depth) meanwhile depth

/-- **A lookup answers about its resource**: with the record that is cached for it in the end, or with
one that is about it. -/
theorem ensures_lookup_about (r : Resource) (depth : Depth) :
    Ensures (fun _ => True)
      (fun record w => record.resource = r ∨ w.state.cache.get? r = some record)
      (lookup env r depth) :=
  ensures_lookup_of (fun _ => .inl rfl) (fun _ _ h => .inr h)
    (fun _ isLinked depth => (ensures_scan_resource r isLinked depth).mono (fun _ h => h)
      fun _ _ h => .inl h) depth

end Lookup
end StatusCache
