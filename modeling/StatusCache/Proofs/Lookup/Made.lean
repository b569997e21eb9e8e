/-
# What the record of an entry is made from

When the turn comes to an entry of a batch and what it is about has no record yet, the record is made
from an entry (`Env.source?`): from its own, with the conflicts that are given with it or fetched for
it, or for an external from the first of those that the backend has at its place. Only three records
tell nothing of it (`Made`): below an opaque node everything is ignored, and so are an external that
does not answer and a new directory that mounts a working copy further down.

Every record that a batch adds is made at the turn of one entry (`exists_madeAt`), and stays
(`MadeAt.made`). So a conflict that is known of an entry is found in its record. But the status is
settled on after the conflict was seen, and is asked for anew where the backend reports the node as
unversioned; then the conflict does not show (`MadeAt.conflict_shown`).
-/

import StatusCache.Proofs.Lookup.Again

namespace StatusCache
namespace Lookup

variable {env : Env} {batch : Batch} {project k : Resource} {isFirst : Bool}
  {e source : Entry} {f : Finding} {u v w : World} {record : Record} {above : Option Record}
  {p q : Progress} {before rest : List Entry} {path : Path}

/-! ### The entry that a record is made from -/

/-- Whether conflicts are asked for before it is settled what an entry is about: the entry gives none,
but says that there are some, or it is of no kind. -/
def Env.asksForConflicts (env : Env) (e : Entry) : Bool :=
  (e.conflicts.filter (· ≠ [])).isNone &&
    (e.inConflict || diskKind env.disk e.path e.kind = .none)

/-- The conflicts that the metadata of a node describe, after some requests. -/
def Env.fetched (env : Env) (calls : List Backend.Call) (path : Path) :
    Option (List TreeConflict) :=
  match env.backend.info calls { path := path.text } .empty with
  | .ok infos => (infos.getLast?.bind (·.conflicts)).filter (· ≠ [])
  | .error _ => none

/-- The conflicts that are known of an entry: those given with it, or those fetched. -/
def Env.conflictsOf (env : Env) (calls : List Backend.Call) (e : Entry) :
    Option (List TreeConflict) :=
  if env.asksForConflicts e then env.fetched calls e.path else e.conflicts.filter (· ≠ [])

/-- The requests made once it is settled what an entry is about. -/
def Env.callsAfter (env : Env) (calls : List Backend.Call) (e : Entry) : List Backend.Call :=
  if env.asksForConflicts e then .info { path := e.path.text } .empty :: calls else calls

/-- The root of an external as the backend reports it at its own place, if it does. -/
def Env.external? (env : Env) (calls : List Backend.Call) (path : Path) : Option Entry :=
  match env.backend.status calls path .immediates { unchanged := true } with
  | .ok entries => (Entry.arrange entries).head?.filter (·.url.isSome)
  | .error _ => none

/-- The entry that the record of an entry is made from, after some requests. -/
def Env.source? (env : Env) (calls : List Backend.Call) (e : Entry) : Option Entry :=
  if e.text = .external then env.external? (env.callsAfter calls e) e.path
  else some { e with conflicts := env.conflictsOf calls e }

/-- The conflicts that are fetched are those that the backend gives at the moment. -/
theorem run_fetchConflicts_eq {conflicts : Option (List TreeConflict)}
    (hrun : (fetchConflicts env path).run w = (.ok conflicts, v)) :
    conflicts = env.fetched w.calls path := by
  have hask : (askInfo env { path := path.text } .empty).run w =
      (.ok (env.backend.info w.calls { path := path.text } .empty),
        { w with calls := .info { path := path.text } .empty :: w.calls }) := rfl
  rw [fetchConflicts, run_bind_ok hask] at hrun
  unfold Env.fetched
  cases hanswer : env.backend.info w.calls { path := path.text } .empty with
  | error failure =>
    rw [hanswer] at hrun
    cases failure <;> cases hrun <;> rfl
  | ok infos =>
    rw [hanswer] at hrun
    cases hrun
    rfl

/-- What is told of an external is what the backend tells at the moment. -/
theorem run_queryExternal_eq {fresh : Option Entry}
    (hrun : (queryExternal env path).run w = (.ok fresh, v)) :
    fresh = env.external? w.calls path := by
  have hask : (askStatus env path .immediates { unchanged := true }).run w =
      (.ok (env.backend.status w.calls path .immediates { unchanged := true }),
        { w with calls := .status path .immediates { unchanged := true } :: w.calls }) := rfl
  rw [queryExternal, run_bind_ok hask] at hrun
  unfold Env.external?
  cases hanswer : env.backend.status w.calls path .immediates { unchanged := true } with
  | error failure =>
    rw [hanswer] at hrun
    cases failure <;> cases hrun <;> rfl
  | ok entries =>
    rw [hanswer] at hrun
    cases hrun
    rfl

/-- An entry is settled with the conflicts that are known of it. -/
theorem run_settle_eq {found : Option Finding}
    (hrun : (settle env batch project isFirst e).run w = (.ok found, v)) :
    found = batch.settled? env project isFirst e (env.conflictsOf w.calls e) ∧
      v.state = w.state ∧ v.calls = env.callsAfter w.calls e := by
  rw [settle_eq] at hrun
  unfold Env.conflictsOf Env.callsAfter Env.asksForConflicts
  split at hrun
  next hasks =>
    rw [if_pos hasks, if_pos hasks]
    obtain ⟨_, hcontra, -⟩ | ⟨conflicts, u, hfetch, hstate, hrun⟩ :=
      (asks_fetchConflicts _).bind_cases hrun
    · cases hcontra
    · obtain ⟨hu, -⟩ := run_fetchConflicts hfetch
      rw [← run_fetchConflicts_eq hfetch]
      cases hrun
      exact ⟨rfl, hstate, by rw [hu]⟩
  next hasks =>
    rw [if_neg hasks, if_neg hasks]
    cases hrun
    exact ⟨rfl, rfl, rfl⟩

/-! ### How a record is made -/

/-- How the record of a finding is made, given the record of the nearest container above and the
entry that describes the node, if there is one. -/
inductive Made (env : Env) (batch : Batch) (f : Finding) (above : Option Record)
    (source : Option Entry) : Record → Prop
  | forbidden (habove : above.any (·.mask.isOpaque)) :
      Made env batch f above source (.bare f.resource .ignored { forbidden := true })
  | unreachable (hopen : ¬above.any (·.mask.isOpaque)) (hsource : source = none) :
      Made env batch f above source (.bare f.resource .ignored { external := true })
  | mounted (hopen : ¬above.any (·.mask.isOpaque)) {s : Entry} (hsource : source = some s)
      (hmounts : reportedText s = .new ∧ f.kind = .dir ∧ env.nestsMetadata f.resource) :
      Made env batch f above source (.bare f.resource .ignored { external := true })
  | described (hopen : ¬above.any (·.mask.isOpaque)) {s : Entry} (hsource : source = some s)
      (isExternal : Bool) :
      Made env batch f above source (env.committed (recordOf batch { f with entry := s } above
        isExternal (settled env { f with entry := s } (reportedText s) above)))

/-- What is ignored without provenance is committed as it is. -/
theorem committed_ignored (env : Env) (r : Resource) (mask : Mask) :
    env.committed (.bare r .ignored mask) = .bare r .ignored mask := by
  unfold Env.committed
  rw [if_neg fun h => nomatch h.1]
  rfl

/-- The record of what is registered, if that is what had none. -/
theorem eq_committed_of_registered {added : Record}
    (hnew : w.state.cache.get? k = none)
    (hget : (registered env added w).state.cache.get? k = some record) :
    record = env.committed added := by
  rw [cache_registered, Cache.get?_put] at hget
  split at hget
  · exact (Option.some.inj hget).symm
  · rw [hnew] at hget
    cases hget

/-- How the record of a finding is made, once it is known that nothing above is opaque. -/
theorem made_of_commit {g : Finding} {isExternal : Bool} (hg : g = { f with entry := source })
    (hopen : ¬above.any (·.mask.isOpaque)) (hnew : u.state.cache.get? f.resource = none)
    (habove : u.state.cache.nearestAbove? f.resource = above)
    (hget : ((commit env batch g above isExternal).run u).2.state.cache.get? f.resource =
      some record) :
    Made env batch f above (some source) record := by
  subst hg habove
  rcases run_commit_cases env batch { f with entry := source } _ isExternal u with
    hrun | ⟨hmounts, hrun⟩ | hrun <;> rw [hrun] at hget
  · rw [hnew] at hget
    cases hget
  · rw [eq_committed_of_registered hnew hget, committed_ignored]
    exact .mounted hopen rfl hmounts
  · rw [eq_committed_of_registered (by rwa [cache_noted]) hget]
    exact .described hopen rfl isExternal

/-- How the record of a finding without one is made, whether recording it succeeds or fails. -/
theorem made_of_recordFinding (hnew : u.state.cache.get? f.resource = none)
    (hget : ((recordFinding env batch isFirst f).run u).2.state.cache.get? f.resource =
      some record) :
    Made env batch f (u.state.cache.nearestAbove? f.resource)
      (if f.entry.text = .external then env.external? u.calls f.entry.path else some f.entry)
      record := by
  -- Questions leave the state, so a failed one made no record.
  have hasked : ∀ {v : World}, v.state = u.state →
      v.state.cache.get? f.resource ≠ some record := fun hv h => by
    rw [hv, hnew] at h
    cases h
  have hcommit : ∀ {g : Finding} {s : Entry} {isExternal : Bool} {v : World}, v.state = u.state →
      g = { f with entry := s } → ¬(u.state.cache.nearestAbove? f.resource).any
        (·.mask.isOpaque) →
      ((commit env batch g (u.state.cache.nearestAbove? f.resource) isExternal).run
        v).2.state.cache.get? f.resource = some record →
      Made env batch f (u.state.cache.nearestAbove? f.resource) (some s) record :=
    fun hv hg hopen => made_of_commit hg hopen (by rw [hv, hnew]) (by rw [hv])
  rcases hrun : (recordFinding env batch isFirst f).run u with ⟨out, v⟩
  rw [hrun] at hget
  unfold recordFinding at hrun
  rw [run_bind_ok (run_cachedAbove f.resource u)] at hrun
  split at hrun
  next habove =>
    cases hrun
    rw [eq_committed_of_registered hnew hget, committed_ignored]
    exact .forbidden habove
  next hopen =>
  split at hrun
  next htext =>
    rw [if_pos htext]
    obtain ⟨_, -, hstate⟩ | ⟨fresh, u', hquery, hstate, hrun⟩ :=
      (asks_queryExternal _).bind_cases hrun
    · exact absurd hget (hasked hstate)
    rw [← run_queryExternal_eq hquery]
    cases fresh with
    | some fresh => exact hcommit hstate rfl hopen (by rwa [hrun])
    | none =>
      cases hrun
      rw [eq_committed_of_registered (by rw [hstate, hnew]) hget, committed_ignored]
      exact .unreachable hopen rfl
  next htext =>
    rw [if_neg htext]
    split at hrun
    · obtain ⟨_, -, hstate⟩ | ⟨isExternal, u', -, hstate, hrun⟩ :=
        (asks_isExternalRoot batch f).bind_cases hrun
      · exact absurd hget (hasked hstate)
      · exact hcommit hstate rfl hopen (by rwa [hrun])
    · have hrun : (commit env batch f (u.state.cache.nearestAbove? f.resource) false).run u =
          (out, v) := hrun
      exact hcommit rfl rfl hopen (by rwa [hrun])

/-- **How the record of an entry is made**, if what the entry is about had none. -/
theorem made_of_fillEntry (hnew : u.state.cache.get? k = none)
    (hget : ((fillEntry env batch project isFirst e p).run u).2.state.cache.get? k = some record) :
    (batch.finding env project e).resource = k ∧
      Made env batch (batch.finding env project e) (u.state.cache.nearestAbove? k)
        (env.source? u.calls e) record := by
  have hresource : (batch.finding env project e).resource = k :=
    (fillEntry_adds p u).eq_of_isSome hnew (by rw [hget]; rfl)
  refine ⟨hresource, ?_⟩
  have hasks : Asks (settle env batch project isFirst e) := asks_settle batch project isFirst e
  have hstate := hasks.state_eq u
  rcases hsettle : (settle env batch project isFirst e).run u with ⟨err | found, v⟩ <;>
    rw [hsettle] at hstate
  · rw [fillEntry, run_bind, hsettle] at hget
    rw [show v.state = u.state from hstate, hnew] at hget
    cases hget
  · obtain ⟨hfound, hv, hcalls⟩ := run_settle_eq hsettle
    have hcases := @settled?_cases env batch project e isFirst (env.conflictsOf u.calls e)
    rw [← hfound] at hcases
    subst hresource
    rcases hcases with rfl | ⟨rfl, -⟩ <;> rw [state_fillEntry hsettle] at hget <;>
      dsimp only at hget
    · rw [hv, hnew] at hget
      rw [← hv] at hnew
      have hmade := made_of_recordFinding (f := { batch.finding env project e with
        entry := { e with conflicts := env.conflictsOf u.calls e } }) hnew hget
      rw [hv, hcalls] at hmade
      cases hmade with
      | forbidden habove => exact .forbidden habove
      | unreachable hopen hsource => exact .unreachable hopen hsource
      | mounted hopen hsource hmounts => exact .mounted hopen hsource hmounts
      | described hopen hsource isExternal => exact .described hopen hsource isExternal
    · rw [hv, hnew] at hget
      cases hget

/-! ### The turn of an entry -/

/-- Entries are worked through one after the other. -/
theorem run_fillEntries_append
    (hbefore : (fillEntries env batch project isFirst before p).run w = (.ok q, u))
    (rest : List Entry) :
    (fillEntries env batch project isFirst (before ++ rest) p).run w =
      (fillEntries env batch project (isFirst && before.isEmpty) rest q).run u := by
  induction before generalizing isFirst p w with
  | nil =>
    cases hbefore
    rw [List.nil_append, List.isEmpty_nil, Bool.and_true]
  | cons first before ih =>
    rw [fillEntries, run_bind] at hbefore
    rcases hfirst : (fillEntry env batch project isFirst first p).run w with ⟨err | p', v⟩ <;>
      rw [hfirst] at hbefore
    · cases hbefore
    · rw [List.cons_append, fillEntries, run_bind_ok hfirst, ih hbefore]
      simp

/-- What is recorded at the turn of an entry stays as the rest is worked through. -/
theorem get?_fillEntries_cons
    (hget : ((fillEntry env batch project isFirst e p).run u).2.state.cache.get? k = some record)
    (rest : List Entry) :
    ((fillEntries env batch project isFirst (e :: rest) p).run u).2.state.cache.get? k =
      some record := by
  rw [fillEntries, run_bind]
  rcases hrun : (fillEntry env batch project isFirst e p).run u with ⟨err | q, v⟩ <;>
    rw [hrun] at hget
  · exact hget
  · exact fillEntries_induction (Q := fun c => c.get? k = some record)
      (fun _ _ _ _ hadds => hadds.get?_eq_some) q hget

/-- The record of a resource is made at the turn of an entry, from a world on: those before the entry
have been worked through and left the resource without a record, and the entry leaves it with one. -/
structure MadeAt (env : Env) (batch : Batch) (project : Resource) (w : World) (k : Resource)
    (before : List Entry) (e : Entry) (rest : List Entry) (u : World) : Prop where
  split : batch.entries = before ++ e :: rest
  fresh : u.state.cache.get? k = none
  recorded : ∃ p, (fillEntries env batch project true before {}).run w = (.ok p, u) ∧
    (((fillEntry env batch project before.isEmpty e p).run u).2.state.cache.get? k).isSome

/-- What has a record only after some entries got it at the turn of one of them. -/
theorem exists_turn {entries : List Entry} (hnone : w.state.cache.get? k = none)
    (hsome : (((fillEntries env batch project isFirst entries p).run w).2.state.cache.get? k).isSome) :
    ∃ before e rest q u, entries = before ++ e :: rest ∧ u.state.cache.get? k = none ∧
      (fillEntries env batch project isFirst before p).run w = (.ok q, u) ∧
      (((fillEntry env batch project (isFirst && before.isEmpty) e q).run
        u).2.state.cache.get? k).isSome := by
  induction entries generalizing isFirst p w with
  | nil =>
    rw [show ((fillEntries env batch project isFirst [] p).run w).2 = w from rfl, hnone] at hsome
    cases hsome
  | cons e entries ih =>
    by_cases hnow :
        (((fillEntry env batch project isFirst e p).run w).2.state.cache.get? k).isSome
    · exact ⟨[], e, entries, p, w, rfl, hnone, rfl, by simpa using hnow⟩
    · rw [fillEntries, run_bind] at hsome
      rcases hfirst : (fillEntry env batch project isFirst e p).run w with ⟨err | q, v⟩ <;>
        rw [hfirst] at hsome hnow
      · exact absurd hsome hnow
      · obtain ⟨before, e', rest, q', u, rfl, hfresh, hbefore, hrecorded⟩ :=
          ih (by simpa using hnow) hsome
        refine ⟨e :: before, e', rest, q', u, rfl, hfresh, ?_, by simpa using hrecorded⟩
        rw [fillEntries, run_bind_ok hfirst, hbefore]

/-- **Every record that a batch adds is made at the turn of an entry.** -/
theorem exists_madeAt (hproject : batch.resource.project? = some project)
    (hnone : w.state.cache.get? k = none)
    (hsome : (((fill env batch).run w).2.state.cache.get? k).isSome) :
    ∃ before e rest u, MadeAt env batch project w k before e rest u := by
  rw [state_fill hproject] at hsome
  obtain ⟨before, e, rest, p, u, hsplit, hfresh, hbefore, hrecorded⟩ := exists_turn hnone hsome
  rw [Bool.true_and] at hrecorded
  exact ⟨before, e, rest, u, hsplit, hfresh, p, hbefore, hrecorded⟩

namespace MadeAt

variable (h : MadeAt env batch project w k before e rest u)

include h

/-- What is left of a batch is what is left after the rest of it. -/
theorem state_fill (hproject : batch.resource.project? = some project) :
    ∃ p, ((fill env batch).run w).2.state =
        ((fillEntries env batch project before.isEmpty (e :: rest) p).run u).2.state ∧
      (((fillEntry env batch project before.isEmpty e p).run u).2.state.cache.get? k).isSome := by
  obtain ⟨p, hbefore, hrecorded⟩ := h.recorded
  refine ⟨p, ?_, hrecorded⟩
  rw [Lookup.state_fill hproject, h.split, run_fillEntries_append hbefore, Bool.true_and]

/-- **A record that is made at the turn of an entry stays.** -/
theorem made (hproject : batch.resource.project? = some project) :
    (batch.finding env project e).resource = k ∧
      ∃ record, ((fill env batch).run w).2.state.cache.get? k = some record ∧
        Made env batch (batch.finding env project e) (u.state.cache.nearestAbove? k)
          (env.source? u.calls e) record := by
  obtain ⟨p, hstate, hrecorded⟩ := h.state_fill hproject
  obtain ⟨record, hget⟩ := Option.isSome_iff_exists.1 hrecorded
  obtain ⟨hresource, hmade⟩ := made_of_fillEntry h.fresh hget
  exact ⟨hresource, record, by rw [hstate, get?_fillEntries_cons hget], hmade⟩

end MadeAt

/-! ### Conflicts -/

/-- Committing leaves the property status. -/
@[simp]
theorem prop_committed (env : Env) (record : Record) :
    (env.committed record).prop = record.prop := by
  obtain ⟨text, h⟩ := committed_eq env record
  rw [h, Record.canonical]
  split <;> rfl

/-- Committing leaves the conflict. -/
@[simp]
theorem conflict_committed (env : Env) (record : Record) :
    (env.committed record).conflict = record.conflict := by
  obtain ⟨text, h⟩ := committed_eq env record
  rw [h, Record.canonical]
  split <;> rfl

/-- Committing makes no record conflicting, and takes no conflict away. -/
theorem text_committed_eq_conflicting :
    (env.committed record).text = .conflicting ↔ record.text = .conflicting := by
  have hcanonical : ∀ r : Record, r.canonical.text = r.text := fun r => by
    unfold Record.canonical
    split <;> rfl
  unfold Env.committed
  simp only
  split
  next h =>
    rw [hcanonical, h.1]
    split <;> simp
  · rw [hcanonical]

/-- A record shows as conflicting if its properties or its text are. -/
theorem status_eq_conflicting :
    record.status = .conflicting ↔ record.prop = .conflicting ∨ record.text = .conflicting := by
  unfold Record.status
  cases record.text <;> cases record.prop <;> decide

/-- A conflict that an entry reports is settled on unless the node is linked or the backend knows it
as unversioned. -/
theorem settled_eq_conflicting :
    settled env f .conflicting above = .conflicting ↔
      ¬env.host.isLinked f.resource ∧ f.entry.text ≠ .unversioned := by
  unfold settled
  by_cases hlinked : env.host.isLinked f.resource
  · simp [hlinked]
  by_cases htext : f.entry.text = .unversioned
  · have hdelegated : delegated env f.resource above .new ≠ .conflicting := by
      unfold delegated inherited
      split
      · simp
      · split
        · simp
        · split <;> simp
    have hmetadata : ∀ (own : Prop) [Decidable own],
        (if own then Status.obstructed else delegated env f.resource above .new) ≠ .conflicting := by
      intro own _
      split <;> simp [hdelegated]
    simp [hlinked, htext, hmetadata]
  · simp [hlinked, htext]

/-- **Whether a conflict shows.** Where the record of an entry is made from an entry with conflicts,
its own or that of an external, it has the first of them. Its status is conflicting if the properties
are, and else if and only if the node is neither linked nor reported as unversioned. -/
theorem MadeAt.conflict_shown (h : MadeAt env batch project w k before e rest u)
    (hproject : batch.resource.project? = some project)
    (hopen : ¬(u.state.cache.nearestAbove? k).any (·.mask.isOpaque))
    (hsource : env.source? u.calls e = some source) {c : TreeConflict} {others : List TreeConflict}
    (hconflicts : source.conflicts = some (c :: others)) :
    ∃ record, ((fill env batch).run w).2.state.cache.get? k = some record ∧
      record.conflict = some c ∧
      (record.status = .conflicting ↔
        source.prop = .conflicted ∨ ¬env.host.isLinked k ∧ source.text ≠ .unversioned) := by
  obtain ⟨hresource, record, hget, hmade⟩ := h.made hproject
  refine ⟨record, hget, ?_⟩
  have hreported : reportedText source = .conflicting := by
    rw [reportedText, if_pos (by rw [hconflicts]; rfl)]
  rw [hsource] at hmade
  cases hmade with
  | forbidden habove => exact absurd habove hopen
  | unreachable _ hnone => cases hnone
  | mounted _ hsome hmounts =>
    obtain rfl := Option.some.inj hsome
    rw [hreported] at hmounts
    cases hmounts.1
  | described _ hsome isExternal =>
    obtain rfl := Option.some.inj hsome
    rw [conflict_committed, status_eq_conflicting, prop_committed, text_committed_eq_conflicting]
    refine ⟨by simp [recordOf, hconflicts], or_congr ?_ ?_⟩
    · simp only [recordOf]
      cases source.prop <;> decide
    · simp only [recordOf, hreported]
      rw [settled_eq_conflicting, hresource]

/-- An update brings a file to a place where an unversioned one stands. The conflict is recorded, but
the file is shown as new. -/
theorem conflict_shown_unversioned :
    let added : TreeConflict :=
      { action := .add, reason := .unversioned, operation := .update, left := none, right := none }
    let file : Entry :=
      { path := ⟨"wc/x"⟩
        kind := .file
        text := .unversioned
        inConflict := true
        conflicts := some [added] }
    let env := Checkout.lookupEnv [(["wc", "x"], .file [] 0)] {}
    let batch := Checkout.batch [Checkout.root, file]
    let w' := ((fill env batch).run Checkout.world).2
    ∃ record, w'.state.cache.get? (.file "/p/x") = some record ∧
      record.conflict = some added ∧ record.status ≠ .conflicting := by
  intro added file env batch w'
  let out :=
    (fillEntries env batch Checkout.project true [Checkout.root] {}).run Checkout.world
  have hok : out.1.isOk := by decide +kernel
  have hrun := eq_of_isOk hok {}
  have hturn : MadeAt env batch Checkout.project Checkout.world (.file "/p/x") [Checkout.root] file
      [] out.2 :=
    { split := rfl
      fresh := by decide +kernel
      recorded := ⟨_, hrun, by decide +kernel⟩ }
  have hopen : ¬(out.2.state.cache.nearestAbove? (.file "/p/x")).any (·.mask.isOpaque) := by
    decide +kernel
  have hsource : env.source? out.2.calls file = some file := by decide +kernel
  obtain ⟨record, hget, hconflict, hstatus⟩ :=
    hturn.conflict_shown (by decide) hopen hsource rfl
  have hstate : ((fill env batch).run Checkout.world).2 = w' := rfl
  clear_value w'
  rw [hstate] at hget
  refine ⟨record, hget, hconflict, fun hshown => ?_⟩
  rcases hstatus.1 hshown with hprop | ⟨-, htext⟩
  · cases hprop
  · exact htext rfl

end Lookup
end StatusCache
