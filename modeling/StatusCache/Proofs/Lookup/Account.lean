/-
# What becomes of the entries of an answer

Every entry of a batch is about a resource (`Batch.finding`), whatever conflicts are described for
it. After the batch was worked through, that resource has a record, or the entry was left out
(`LeftOut`) for one of three reasons: nothing is there and nobody has told of a conflict; it is at
the root of the working copy without being the first; or it is a new directory with metadata of its
own, which an external may turn out to be once it is asked about (`fill_accounts`).

What is passed over for its metadata has nothing opaque above it at that moment
(`recordFinding_cases`); otherwise it would get a record that says so.
-/

import StatusCache.Proofs.Checkout
import StatusCache.Proofs.Location
import StatusCache.Proofs.Lookup.InFlight

namespace StatusCache

namespace Lookup

/-- A request was made when `calls` had been made before it, after one point and before another. -/
def Asked (start finish : List Backend.Call) (call : Backend.Call) (calls : List Backend.Call) :
    Prop :=
  start <:+ calls ∧ call :: calls <:+ finish

/-- The entry that a node without a conflict is described by: its own, or for an external the first
of those that the backend has for it, if that has a URL. -/
inductive Described (env : Env) (start finish : List Backend.Call) (e : Entry) : Entry → Prop
  | own (htext : e.text ≠ .external) (hentry : e.conflicts.filter (· ≠ []) = none) :
      Described env start finish e { e with conflicts := none }
  | external {calls : List Backend.Call} {entries : List Entry} {fresh : Entry}
      (htext : e.text = .external)
      (hasked : Asked start finish (.status e.path .immediates { unchanged := true }) calls)
      (hanswer : env.backend.status calls e.path .immediates { unchanged := true } = .ok entries)
      (hfresh : (Entry.arrange entries).head? = some fresh) (hurl : fresh.url.isSome) :
      Described env start finish e fresh

/-- A finding is a new directory with metadata of its own. -/
def Env.LeavesAlone (env : Env) (f : Finding) : Prop :=
  reportedText f.entry = .new ∧ f.kind = .dir ∧
    (env.host.location? f.resource).any (env.disk.hasMetadata env.options.metadata)

/-- Why an entry may be left out while a batch is worked through. -/
inductive LeftOut (env : Env) (batch : Batch) (project : Resource)
    (start finish : List Backend.Call) (isFirst : Bool) (e : Entry) : Prop
  | nothing {calls : List Backend.Call} (hkind : e.kind = .none ∨ e.kind = .unknown)
      (habsent : env.disk.isOccupied e.path = false)
      (hentry : e.conflicts.filter (· ≠ []) = none)
      (hasked : Asked start finish (.info { path := e.path.text } .empty) calls)
      (hinfo : ∀ infos, env.backend.info calls { path := e.path.text } .empty = .ok infos →
        (infos.getLast?.bind (·.conflicts)).filter (· ≠ []) = none)
  | root (hlater : isFirst = false) (hroot : e.path.same batch.root)
  | nested {described : Entry} (hdescribed : Described env start finish e described)
      (hleft : env.LeavesAlone { batch.finding env project e with entry := described })

variable {env : Env} {batch : Batch} {project : Resource} {isFirst : Bool} {e : Entry}
  {f : Finding} {w w' : World} {start finish : List Backend.Call} {path : Path}

/-- What was asked in a span of time was asked in a longer one. -/
theorem Asked.mono {start' finish' calls : List Backend.Call} {call : Backend.Call}
    (h : Asked start finish call calls) (hstart : start' <:+ start) (hfinish : finish <:+ finish') :
    Asked start' finish' call calls :=
  ⟨hstart.trans h.1, h.2.trans hfinish⟩

/-- A description that was asked for in a span of time was in a longer one. -/
theorem Described.mono {start' finish' : List Backend.Call} {described : Entry}
    (h : Described env start finish e described) (hstart : start' <:+ start)
    (hfinish : finish <:+ finish') : Described env start' finish' e described := by
  cases h with
  | own htext hentry => exact .own htext hentry
  | external htext hasked hanswer hfresh hurl =>
    exact .external htext (hasked.mono hstart hfinish) hanswer hfresh hurl

/-- Why an entry is left out may have been asked for in a longer span of time. -/
theorem LeftOut.mono {start' finish' : List Backend.Call}
    (h : LeftOut env batch project start finish isFirst e) (hstart : start' <:+ start)
    (hfinish : finish <:+ finish') : LeftOut env batch project start' finish' isFirst e := by
  cases h with
  | nothing hkind habsent hentry hasked hinfo =>
    exact .nothing hkind habsent hentry (hasked.mono hstart hfinish) hinfo
  | root hlater hroot => exact .root hlater hroot
  | nested hdescribed hleft => exact .nested (hdescribed.mono hstart hfinish) hleft

/-- Working through a batch omits an entry: it is left out, or it comes later and is taken to be at the
root of the working copy, as everything outside of that is. -/
def Batch.Omits (batch : Batch) (env : Env) (project : Resource)
    (start finish : List Backend.Call) (isFirst : Bool) (e : Entry) : Prop :=
  LeftOut env batch project start finish isFirst e ∨ isFirst = false ∧ batch.relative e = ""

/-- Why an entry is omitted may have been asked for in a longer span of time. -/
theorem Batch.Omits.mono {start' finish' : List Backend.Call}
    (h : batch.Omits env project start finish isFirst e) (hstart : start' <:+ start)
    (hfinish : finish <:+ finish') : batch.Omits env project start' finish' isFirst e :=
  h.imp_left (·.mono hstart hfinish)

/-! ### Settling -/

/-- Metadata of a node are asked for once. Where they give no conflict, their last node has none. -/
theorem run_fetchConflicts {conflicts : Option (List TreeConflict)}
    (hrun : (fetchConflicts env path).run w = (.ok conflicts, w')) :
    w' = { w with calls := .info { path := path.text } .empty :: w.calls } ∧
      (conflicts = none → ∀ infos,
        env.backend.info w.calls { path := path.text } .empty = .ok infos →
          (infos.getLast?.bind (·.conflicts)).filter (· ≠ []) = none) := by
  have hask : (askInfo env { path := path.text } .empty).run w =
      (.ok (env.backend.info w.calls { path := path.text } .empty),
        { w with calls := .info { path := path.text } .empty :: w.calls }) := rfl
  rw [fetchConflicts, run_bind_ok hask] at hrun
  rcases hanswer : env.backend.info w.calls { path := path.text } .empty with failure | infos <;>
    rw [hanswer] at hrun
  · cases failure <;> cases hrun <;> exact ⟨rfl, fun _ _ h => nomatch h⟩
  · cases hrun
    exact ⟨rfl, fun hnone infos' h => Except.ok.inj h ▸ hnone⟩

/-- What asking does is not seen in the state. -/
theorem Asks.state_eq {α : Type} {x : Action α} (hx : Asks x) (w : World) :
    (x.run w).2.state = w.state := by
  obtain ⟨calls, hcalls⟩ := hx w
  rw [hcalls]

/-- Asking for something and going on from there ends where the asking failed, or goes on with an
answer in the same state. -/
theorem Asks.bind_cases {α β : Type} {x : Action α} {g : α → Action β} (hx : Asks x)
    {out : Except Error β} (hrun : (x >>= g).run w = (out, w')) :
    (∃ err, out = .error err ∧ w'.state = w.state) ∨
      ∃ a u, x.run w = (.ok a, u) ∧ u.state = w.state ∧ (g a).run u = (out, w') := by
  have hstate := hx.state_eq w
  rw [run_bind] at hrun
  rcases hask : x.run w with ⟨err | a, u⟩ <;> rw [hask] at hrun hstate
  · cases hrun
    exact .inl ⟨err, rfl, hstate⟩
  · exact .inr ⟨a, u, rfl, hstate, hrun⟩

/-- **What an entry is settled to be about**: what the batch takes it to be about, with the conflicts
that are described somewhere; or nothing, for a reason. -/
theorem run_settle {found : Option Finding}
    (hrun : (settle env batch project isFirst e).run w = (.ok found, w')) :
    (∃ conflicts, found = some { batch.finding env project e with
        entry := { e with conflicts := conflicts } } ∧
      (conflicts = none → e.conflicts.filter (· ≠ []) = none)) ∨
    (found = none ∧ ((∃ calls, diskKind env.disk e.path e.kind = .none ∧
        e.conflicts.filter (· ≠ []) = none ∧
        Asked w.calls w'.calls (.info { path := e.path.text } .empty) calls ∧
        ∀ infos, env.backend.info calls { path := e.path.text } .empty = .ok infos →
          (infos.getLast?.bind (·.conflicts)).filter (· ≠ []) = none) ∨
      isFirst = false ∧ batch.relative e = "")) := by
  rw [settle_eq] at hrun
  split at hrun
  next hask =>
    have hentry := Option.isNone_iff_eq_none.1 (Bool.and_eq_true_iff.1 hask).1
    obtain ⟨_, hcontra, -⟩ | ⟨conflicts, u, hfetch, -, hrun⟩ :=
      (asks_fetchConflicts _).bind_cases hrun
    · cases hcontra
    obtain ⟨hu, hinfo⟩ := run_fetchConflicts hfetch
    cases hrun
    rcases settled?_cases isFirst conflicts with hfound | ⟨hfound, ⟨hkind, hnone⟩ | hroot⟩
    · exact .inl ⟨conflicts, hfound, fun _ => hentry⟩
    · exact .inr ⟨hfound, .inl ⟨w.calls, hkind, hentry, ⟨List.suffix_rfl, by rw [hu]⟩, hinfo hnone⟩⟩
    · exact .inr ⟨hfound, .inr hroot⟩
  next hnot =>
    cases hrun
    rcases settled?_cases isFirst (e.conflicts.filter (· ≠ [])) with
      hfound | ⟨hfound, ⟨hkind, hnone⟩ | hroot⟩
    · exact .inl ⟨_, hfound, fun h => h⟩
    · exact absurd (by rw [hnone, hkind]; simp) hnot
    · exact .inr ⟨hfound, .inr hroot⟩

/-! ### Recording -/

/-- Records are only added while a node is scanned or an answer is worked through. -/
theorem Write.isSome_get? (h : Write env w w') (hr : (w.state.cache.get? r).isSome) :
    (w'.state.cache.get? r).isSome := by
  have hput : ∀ (c : Cache) (record : Record), (c.get? r).isSome →
      ((c.put record).get? r).isSome := fun c record hr => by
    rw [Cache.get?_put]
    split
    · rfl
    · exact hr
  cases h with
  | ask => exact hr
  | ignore => exact hput _ _ hr
  | scan => exact hput _ _ hr
  | describe =>
    rw [described, cache_registered, cache_noted]
    exact hput _ _ hr

/-- Whatever an action does after a resource got a record, it keeps one. -/
theorem ensures_recorded {α : Type} {x : Action α} (hx : Moves (Write env) x) (m : Resource) :
    Ensures (fun w => (w.state.cache.get? m).isSome) (fun _ w => (w.state.cache.get? m).isSome) x :=
  .of_moves hx fun _ _ h => h.isSome_get?

/-- What is registered has a record afterwards, unless it is the root. -/
theorem ensures_register_recorded (hm : record.resource.parent?.isSome) :
    Ensures (fun _ => True) (fun _ w => (w.state.cache.get? record.resource).isSome)
      (register env record) := by
  intro w _ _ _ hrun
  rw [run_register] at hrun
  cases hrun
  rw [get?_registered env record w hm]
  rfl

/-- A finding gets a record, unless it is left alone. -/
theorem ensures_commit_recorded (hf : f.resource.parent?.isSome) (hleft : ¬env.LeavesAlone f)
    (batch : Batch) (above : Option Record) (isExternal : Bool) :
    Ensures (fun _ => True) (fun _ w => (w.state.cache.get? f.resource).isSome)
      (commit env batch f above isExternal) := by
  unfold commit
  rw [if_neg fun hnew => hleft (by simpa [Env.LeavesAlone, and_assoc] using hnew)]
  refine .ite ?_ (.ite ?_ ?_)
  · exact .bind (ensures_register_recorded hf) fun _ => .pure fun _ h => h
  · exact .bind (.trivial _) fun _ => .bind (.trivial _) fun _ =>
      .bind (ensures_register_recorded hf) fun _ => .pure fun _ h => h
  · exact .bind (.trivial _) fun _ =>
      .bind (ensures_register_recorded hf) fun _ => .pure fun _ h => h

/-- What is committed has a record, unless it is left alone. -/
theorem isSome_commit (hf : f.resource.parent?.isSome) {above : Option Record} {isExternal : Bool}
    {record : Option Record}
    (hrun : (commit env batch f above isExternal).run w = (.ok record, w')) :
    (w'.state.cache.get? f.resource).isSome ∨ w' = w ∧ env.LeavesAlone f := by
  by_cases hleft : env.LeavesAlone f
  · obtain ⟨hnew, hdir, hmetadata⟩ := hleft
    unfold commit at hrun
    simp only [hnew, hdir, hmetadata, decide_true, Bool.and_self, if_true] at hrun
    cases hrun
    exact .inr ⟨rfl, hnew, hdir, hmetadata⟩
  · exact .inl (ensures_commit_recorded hf hleft batch above isExternal w record w' trivial hrun)

/-- A finding without a record is passed over: nothing opaque is above it, and it is left alone, as
it is or as the external that it turns out to be. -/
def PassedOver (env : Env) (f : Finding) (w w' : World) : Prop :=
  w'.state = w.state ∧ ¬(w.state.cache.nearestAbove? f.resource).any (·.mask.isOpaque) ∧
    (f.entry.text ≠ .external ∧ env.LeavesAlone f ∨
      f.entry.text = .external ∧ ∃ fresh,
        (queryExternal env f.entry.path).run w = (.ok (some fresh), w') ∧
        env.LeavesAlone { f with entry := fresh })

/-- The record that was registered is cached. -/
theorem isSome_register (record : Record) (hr : record.resource.parent?.isSome) (w : World) :
    ((registered env record w).state.cache.get? record.resource).isSome := by
  rw [get?_registered env record w hr]
  rfl

/-- **A finding without a record gets one, or is passed over.** -/
theorem recordFinding_cases (hf : f.resource.parent?.isSome) {record : Option Record}
    (hrun : (recordFinding env batch isFirst f).run w = (.ok record, w')) :
    (w'.state.cache.get? f.resource).isSome ∨ PassedOver env f w w' := by
  unfold recordFinding at hrun
  rw [run_bind_ok (run_cachedAbove f.resource w)] at hrun
  split at hrun
  · rw [run_bind_ok (run_register env _ w)] at hrun
    cases hrun
    exact .inl (isSome_register (.bare f.resource .ignored { forbidden := true }) hf w)
  next hclear =>
  split at hrun
  next htext =>
    obtain ⟨_, hcontra, -⟩ | ⟨fresh, u, hquery, hstate, hrun⟩ :=
      (asks_queryExternal _).bind_cases hrun
    · cases hcontra
    · cases fresh with
      | some fresh =>
        refine (isSome_commit (f := { f with entry := fresh }) hf hrun).imp_right ?_
        rintro ⟨rfl, hleft⟩
        exact ⟨hstate, hclear, .inr ⟨htext, fresh, hquery, hleft⟩⟩
      | none =>
        dsimp only at hrun
        rw [run_bind_ok (run_register env _ u)] at hrun
        cases hrun
        exact .inl (isSome_register (.bare f.resource .ignored { external := true }) hf u)
  next htext =>
    -- Both ways on lead to the same commit, which tells whether the entry is left out.
    have hcommit : ∀ isExternal u, u.state = w.state →
        (commit env batch f (w.state.cache.nearestAbove? f.resource) isExternal).run u =
          (.ok record, w') →
        (w'.state.cache.get? f.resource).isSome ∨ PassedOver env f w w' := by
      intro isExternal u hu h
      refine (isSome_commit hf h).imp_right ?_
      rintro ⟨rfl, hleft⟩
      exact ⟨hu, hclear, .inl ⟨htext, hleft⟩⟩
    split at hrun
    · obtain ⟨_, hcontra, -⟩ | ⟨isExternal, u, -, hstate, hrun⟩ :=
        (asks_isExternalRoot batch f).bind_cases hrun
      · cases hcontra
      · exact hcommit isExternal u hstate hrun
    · exact hcommit false w rfl hrun

/-! ### Working through a batch -/

/-- What working through an entry consists of: it is settled, and a finding without a record is
recorded. -/
theorem run_fillEntry {p p' : Progress}
    (hrun : (fillEntry env batch project isFirst e p).run w = (.ok p', w')) :
    ∃ found u, (settle env batch project isFirst e).run w = (.ok found, u) ∧
      (found = none ∧ w' = u ∨ ∃ f, found = some f ∧
        ((u.state.cache.get? f.resource).isSome ∧ w' = u ∨
          u.state.cache.get? f.resource = none ∧
            ∃ record, (recordFinding env batch isFirst f).run u = (.ok record, w'))) := by
  unfold fillEntry at hrun
  obtain ⟨_, hcontra, -⟩ | ⟨found, u, hsettle, -, hrun⟩ :=
    (asks_settle batch project isFirst e).bind_cases hrun
  · cases hcontra
  refine ⟨found, u, hsettle, ?_⟩
  cases found with
  | none =>
    cases hrun
    exact .inl ⟨rfl, rfl⟩
  | some f =>
    refine .inr ⟨f, rfl, ?_⟩
    dsimp only at hrun
    rw [run_bind_ok (run_cached f.resource u)] at hrun
    -- A finding that has its record is not looked at again.
    cases hcached : u.state.cache.get? f.resource with
    | some record =>
      rw [hcached] at hrun
      cases hrun
      exact .inl ⟨rfl, rfl⟩
    | none =>
      rw [hcached] at hrun
      simp only [pure_bind] at hrun
      rw [run_bind] at hrun
      rcases hrecord : (recordFinding env batch isFirst f).run u with ⟨_ | record, v⟩ <;>
        rw [hrecord] at hrun
      · cases hrun
      · cases hrun
        exact .inr ⟨rfl, record, rfl⟩

/-- Replacing a character leaves no text empty but the empty one. -/
theorem replace_eq_empty {old new : Char} {s : String} : Text.replace old new s = "" ↔ s = "" := by
  rw [← String.toList_inj, ← String.toList_inj, Text.replace]
  simp

/-- What the external that an entry turns out to be is described by. -/
theorem described_of_queryExternal {fresh : Entry} (htext : e.text = .external)
    (hrun : (queryExternal env e.path).run w = (.ok (some fresh), w')) :
    Described env w.calls w'.calls e fresh := by
  have hask : (askStatus env e.path .immediates { unchanged := true }).run w =
      (.ok (env.backend.status w.calls e.path .immediates { unchanged := true }),
        { w with calls := .status e.path .immediates { unchanged := true } :: w.calls }) := rfl
  rw [queryExternal, run_bind_ok hask] at hrun
  rcases hanswer : env.backend.status w.calls e.path .immediates { unchanged := true } with
    failure | entries <;> rw [hanswer] at hrun
  · cases failure <;> cases hrun
  · obtain ⟨hvalue, rfl⟩ := Prod.mk.inj hrun
    obtain ⟨hfresh, hurl⟩ := Option.filter_eq_some_iff.1 (Except.ok.inj hvalue)
    exact .external htext ⟨List.suffix_rfl, List.suffix_rfl⟩ hanswer hfresh hurl

/-- Requests are added to those that were made before. -/
theorem Asks.calls_suffix {α : Type} {x : Action α} (hx : Asks x) (w : World) :
    w.calls <:+ (x.run w).2.calls := by
  obtain ⟨calls, hcalls⟩ := hx w
  rw [hcalls]
  exact List.suffix_append calls w.calls

/-- A finding that is left without a record is left alone, described by an entry of its own. -/
theorem described_of_recordFinding {g : Finding} {conflicts : Option (List TreeConflict)}
    (hg : g.resource.parent?.isSome)
    (hconflicts : conflicts = none → e.conflicts.filter (· ≠ []) = none) {record : Option Record}
    (hrun : (recordFinding env batch isFirst
      { g with entry := { e with conflicts := conflicts } }).run w = (.ok record, w')) :
    (w'.state.cache.get? g.resource).isSome ∨ ∃ described,
      Described env w.calls w'.calls e described ∧
        env.LeavesAlone { g with entry := described } := by
  refine (recordFinding_cases (f := { g with entry := { e with conflicts := conflicts } }) hg
    hrun).imp_right ?_
  rintro ⟨-, -, ⟨htext, hleft⟩ | ⟨htext, fresh, hquery, hleft⟩⟩
  · have hnone : conflicts = none := by
      by_contra hsome
      have hnew : reportedText { e with conflicts := conflicts } = .new := hleft.1
      rw [reportedText, if_pos (Option.isSome_iff_ne_none.2 hsome)] at hnew
      cases hnew
    subst hnone
    exact ⟨_, .own htext (hconflicts rfl), hleft⟩
  · exact ⟨fresh, described_of_queryExternal htext hquery, hleft⟩

/-- **An entry that was worked through is accounted for.** -/
theorem fillEntry_accounts (hparent : (batch.finding env project e).resource.parent?.isSome)
    {p p' : Progress} (hrun : (fillEntry env batch project isFirst e p).run w = (.ok p', w')) :
    (w'.state.cache.get? (batch.finding env project e).resource).isSome ∨
      batch.Omits env project w.calls w'.calls isFirst e := by
  obtain ⟨found, u, hsettle, hfound⟩ := run_fillEntry hrun
  have hasks : Asks (settle env batch project isFirst e) := asks_settle batch project isFirst e
  have hcalls := hasks.calls_suffix w
  rw [hsettle] at hcalls
  rcases run_settle hsettle with ⟨conflicts, rfl, hconflicts⟩ | ⟨rfl, hleft⟩
  · obtain ⟨hnone, -⟩ | ⟨f, hf, hrecord⟩ := hfound
    · cases hnone
    obtain rfl := Option.some.inj hf
    rcases hrecord with ⟨hcached, rfl⟩ | ⟨-, record, hrecord⟩
    · exact .inl hcached
    · refine (described_of_recordFinding hparent hconflicts hrecord).imp_right ?_
      rintro ⟨described, hdescribed, hleft⟩
      exact .inl (.nested (hdescribed.mono hcalls List.suffix_rfl) hleft)
  · obtain ⟨-, rfl⟩ | ⟨f, hf, -⟩ := hfound
    · refine .inr (hleft.imp_left ?_)
      rintro ⟨calls, hkind, hentry, hasked, hinfo⟩
      obtain ⟨hkind, habsent⟩ := diskKind_eq_none.1 hkind
      exact .nothing hkind habsent hentry hasked hinfo
    · cases hf

/-- Each of several entries that were worked through is accounted for. -/
theorem fillEntries_accounts {entries : List Entry}
    (hparent : (batch.finding env project e).resource.parent?.isSome) {p p' : Progress}
    (hrun : (fillEntries env batch project isFirst entries p).run w = (.ok p', w'))
    {before after : List Entry} (hsplit : entries = before ++ e :: after) :
    (w'.state.cache.get? (batch.finding env project e).resource).isSome ∨
      batch.Omits env project w.calls w'.calls (isFirst && before.isEmpty) e := by
  -- Calls only grow, so an omission at one turn is one of the whole run.
  induction entries generalizing isFirst p w before with
  | nil => simp at hsplit
  | cons first entries ih =>
    rw [fillEntries, run_bind] at hrun
    rcases hfirst : (fillEntry env batch project isFirst first p).run w with ⟨_ | q, u⟩ <;>
      rw [hfirst] at hrun
    · cases hrun
    have hcalls : w.calls <:+ u.calls := by
      have hmoves : Moves (Write env) (fillEntry env batch project isFirst first p) :=
        moves_fillEntry batch project isFirst first p
      have hcalls := calls_of_moves (hmoves.mono fun _ _ => Write.turn) w
      rwa [hfirst] at hcalls
    have hmoves : Moves (Write env) (fillEntries env batch project false entries q) :=
      moves_fillEntries batch project false entries q
    cases before with
    | nil =>
      obtain ⟨rfl, rfl⟩ := List.cons.inj hsplit
      have hlater : u.calls <:+ w'.calls := by
        have hlater := calls_of_moves (hmoves.mono fun _ _ => Write.turn) u
        rwa [show (fillEntries env batch project false entries q).run u = _ from hrun] at hlater
      rw [List.isEmpty_nil, Bool.and_true]
      rcases fillEntry_accounts hparent hfirst with hcached | homits
      · exact .inl (ensures_recorded hmoves _ u p' w' hcached hrun)
      · exact .inr (homits.mono List.suffix_rfl hlater)
    | cons b before =>
      obtain ⟨rfl, rfl⟩ := List.cons.inj hsplit
      rw [List.isEmpty_cons, Bool.and_false]
      refine (ih hrun rfl).imp_right fun homits => ?_
      rw [Bool.false_and] at homits
      exact homits.mono hcalls List.suffix_rfl

/-- **What a batch tells of is recorded**, or it is omitted, wherever the entries lie. -/
theorem recorded_or_omits (hproject : batch.resource.project? = some project)
    (hparent : (batch.finding env project e).resource.parent?.isSome)
    {found : Option Record × List Entry} (hrun : (fill env batch).run w = (.ok found, w'))
    {before after : List Entry} (hsplit : batch.entries = before ++ e :: after) :
    (w'.state.cache.get? (batch.finding env project e).resource).isSome ∨
      batch.Omits env project w.calls w'.calls before.isEmpty e := by
  unfold fill at hrun
  rw [hproject] at hrun
  dsimp only at hrun
  rw [run_bind] at hrun
  rcases hfill : (fillEntries env batch project true batch.entries {}).run w with ⟨_ | p, u⟩ <;>
    rw [hfill] at hrun
  · cases hrun
  · cases hrun
    have h := fillEntries_accounts hparent hfill hsplit
    rwa [Bool.true_and] at h

/-- Below the root of the working copy an entry is omitted only if it is left out. -/
theorem Batch.Omits.leftOut (h : batch.Omits env project start finish isFirst e)
    (hbelow : e.path.startsWith batch.root) :
    LeftOut env batch project start finish isFirst e := by
  refine h.elim id fun ⟨hlater, hempty⟩ => ?_
  obtain ⟨text, htext⟩ := Path.exists_below? hbelow
  rw [Batch.relative, htext, Option.getD_some, replace_eq_empty] at hempty
  exact .root hlater (Path.same_of_below?_eq_empty (hempty ▸ htext))

/-- What an entry is about is not the root of the workspace. -/
theorem isSome_parent?_finding (hplain : ∀ s ∈ batch.resource.segments, '/' ∉ s.toList)
    (hproject : batch.resource.project? = some project) (hinside : batch.resource.kind ≠ .root)
    (hmember : ∀ {relative m}, env.host.member? project relative = some m → m.kind ≠ .root)
    (e : Entry) : (batch.finding env project e).resource.parent?.isSome := by
  rw [Option.isSome_iff_ne_none, Ne, Resource.parent?_eq_none]
  obtain ⟨name, below, hname, -, rfl⟩ := Resource.exists_names_of_project? hplain hproject
  have hnames : (⟨[name], .project⟩ : Resource).names ≠ [] := by
    simp [Resource.names, hname.1]
  obtain ⟨r, hr, -, hresource⟩ := finding_cases env batch ⟨[name], .project⟩ e
  rw [hresource]
  split
  · exact hinside
  rcases hr with hfound | ⟨-, hfolder | hfile⟩
  · exact hmember hfound
  · rw [hfolder]
    exact Resource.kind_folderAt (by simp) _
  · rw [hfile]
    exact Resource.kind_fileAt hnames _

/-- **Every entry of a batch is accounted for**: once the batch was worked through, the resource
that the entry is about has a record, or the entry was left out. -/
theorem fill_accounts (hplain : ∀ s ∈ batch.resource.segments, '/' ∉ s.toList)
    (hproject : batch.resource.project? = some project) (hinside : batch.resource.kind ≠ .root)
    (hmember : ∀ {relative m}, env.host.member? project relative = some m → m.kind ≠ .root)
    (hbelow : ∀ e ∈ batch.entries, e.path.startsWith batch.root)
    {found : Option Record × List Entry} (hrun : (fill env batch).run w = (.ok found, w'))
    {before after : List Entry} (hsplit : batch.entries = before ++ e :: after) :
    (w'.state.cache.get? (batch.finding env project e).resource).isSome ∨
      LeftOut env batch project w.calls w'.calls before.isEmpty e := by
  have hparent : (batch.finding env project e).resource.parent?.isSome :=
    isSome_parent?_finding hplain hproject hinside hmember e
  refine (recorded_or_omits hproject hparent hrun hsplit).imp_right fun homits => ?_
  exact homits.leftOut (hbelow e (by simp [hsplit]))

/-- A working copy that was checked out by hand into another one has no record after that one was
worked through; everything else has. -/
theorem fill_accounts_nested :
    let nested : Entry := { path := ⟨"wc/n"⟩, kind := .dir, text := .unversioned }
    let env := Checkout.lookupEnv [(["wc", "n"], .dir 0), (["wc", "n", ".svn"], .dir 0)] {}
    let batch := Checkout.batch [Checkout.root, nested]
    let w' := ((fill env batch).run Checkout.world).2
    (w'.state.cache.get? (.project "p")).isSome ∧ w'.state.cache.get? (.folder "p/n") = none ∧
      LeftOut env batch Checkout.project Checkout.world.calls w'.calls false nested := by
  intro nested env batch w'
  have hmember : ∀ {relative m}, env.host.member? Checkout.project relative = some m →
      m.kind ≠ .root := by
    intro relative m hm
    rcases (Checkout.faithful _).member hm with rfl | rfl
    · exact Resource.kind_folderAt (by decide) relative
    · exact Resource.kind_fileAt (by decide) relative
  have hbelow : ∀ e ∈ batch.entries, e.path.startsWith batch.root := by decide +kernel
  have hnested : (batch.finding env Checkout.project nested).resource = .folder "p/n" := by
    decide +kernel
  have hfirst : (w'.state.cache.get? (.project "p")).isSome := by decide +kernel
  have hmissing : w'.state.cache.get? (.folder "p/n") = none := by decide +kernel
  obtain ⟨found, hrun⟩ : ∃ found, (fill env batch).run Checkout.world = (.ok found, w') :=
    ⟨_, eq_of_isOk (by decide +kernel) default⟩
  clear_value w'
  refine ⟨hfirst, hmissing, ?_⟩
  have haccounts := fill_accounts (by decide) (by decide) (by decide) hmember hbelow hrun
    (show batch.entries = [Checkout.root] ++ nested :: [] from rfl)
  refine haccounts.resolve_left ?_
  rw [hnested, hmissing]
  decide

end Lookup
end StatusCache
