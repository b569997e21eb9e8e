/-
# Working through an answer again

All that working through a batch does to what is cached is to add records (`Adds`): each is about
what an entry is about, where nothing was recorded, and it is opaque only below what is opaque, or as
a symlink.

Nothing is left to add the second time. What got a record keeps it. What was left without one was
asked about alone, or it was passed over, and then nothing opaque was above it; later entries put
nothing opaque there either, as they come parents first (`Batch.Loaded.parents_first`). If a
cancellation ended the first run, it ends the second one at the same entry or before
(`tracks_fillEntries`), where nothing has been added in between (`state_of_error`).

All this is so for a resource that is not linked, as lookups load no other, and where different names
on the ways to the entries read differently, as texts do. Otherwise something may be left to add
(`not_fill_adds_once_linked`, `not_fill_adds_once_alike`).
-/

import StatusCache.Proofs.Lookup.Alike
import StatusCache.Proofs.Lookup.Order

namespace StatusCache

namespace Lookup

variable {env : Env} {α β γ δ : Type} {batch : Batch} {project : Resource} {isFirst : Bool}
  {e : Entry} {f : Finding} {w w' v : World} {r parent : Resource} {binding : Binding}
  {depth : Depth}

/-! ### What is added -/

/-- Nothing is added to a cache, or a record for a finding that had none. It is opaque only below
what is opaque, or as a symlink. -/
def Adds (f : Finding) (c c' : Cache) : Prop :=
  c' = c ∨ ∃ record : Record, c' = c.put record ∧ record.resource = f.resource ∧
    c.get? f.resource = none ∧
    (record.mask.isOpaque →
      (c.nearestAbove? f.resource).any (·.mask.isOpaque) ∨ f.isSymlink)

namespace Adds

variable {c c' : Cache} {k : Resource} {record : Record}

/-- Registering a record for a finding that had none is such an addition. -/
theorem registered {env : Env} {record : Record} (hresource : record.resource = f.resource)
    (hnew : w.state.cache.get? f.resource = none)
    (hmask : record.mask.isOpaque →
      (w.state.cache.nearestAbove? f.resource).any (·.mask.isOpaque) ∨ f.isSymlink) :
    Adds f w.state.cache (registered env record w).state.cache :=
  .inr ⟨env.committed record, cache_registered env record w, by rw [resource_committed, hresource],
    hnew, by rwa [mask_committed]⟩

/-- What is recorded stays. -/
theorem get?_eq_some (h : Adds f c c') (hget : c.get? k = some record) :
    c'.get? k = some record := by
  rcases h with rfl | ⟨added, rfl, hresource, hnew, -⟩
  · exact hget
  · rw [Cache.get?_put, if_neg, hget]
    rintro ⟨rfl, -⟩
    rw [hresource, hnew] at hget
    cases hget

/-- What has a record keeps one. -/
theorem isSome_get? (h : Adds f c c') (hsome : (c.get? k).isSome) : (c'.get? k).isSome := by
  obtain ⟨record, hget⟩ := Option.isSome_iff_exists.1 hsome
  rw [h.get?_eq_some hget]
  rfl

/-- What is new is the record of the finding. -/
theorem eq_of_isSome (h : Adds f c c') (hnone : c.get? k = none) (hsome : (c'.get? k).isSome) :
    f.resource = k := by
  rcases h with rfl | ⟨added, rfl, hresource, -, -⟩
  · simp [hnone] at hsome
  · rw [Cache.get?_put] at hsome
    split at hsome
    next hput => exact hresource.symm.trans hput.1
    · simp [hnone] at hsome

/-- What had nothing opaque above it has nothing opaque there afterwards, unless a symlink gets a
record there. -/
theorem not_isOpaque (h : Adds f c c')
    (hsymlink : f.resource ∈ r.ancestors → f.isSymlink = false)
    (hclear : ¬(c.nearestAbove? r).any (·.mask.isOpaque)) :
    ¬(c'.nearestAbove? r).any (·.mask.isOpaque) := by
  rcases h with rfl | ⟨added, rfl, hresource, hnew, hmask⟩
  · exact hclear
  · rcases Cache.nearestAbove?_put_cases c added r with hsame | ⟨hnearest, habove, hsame⟩
    · rwa [hsame]
    · rw [hresource] at habove hsame
      rw [hsame hnew] at hclear
      rw [hnearest, Option.any_some]
      intro hadded
      rcases hmask hadded with habove' | hlink
      · exact hclear habove'
      · simp [hsymlink habove] at hlink

end Adds

/-- Whether a record is that of an opaque node is told by its finding. -/
theorem isOpaque_recordOf (batch : Batch) (f : Finding) (above : Option Record) (isExternal : Bool)
    (text : Status) : (recordOf batch f above isExternal text).mask.isOpaque = f.isSymlink := by
  simp [recordOf, maskOf, Mask.isOpaque]

/-- Committing a finding without a record adds at most one for it. -/
theorem commit_adds (hnew : w.state.cache.get? f.resource = none) (above : Option Record)
    (isExternal : Bool) :
    Adds f w.state.cache ((commit env batch f above isExternal).run w).2.state.cache := by
  rcases run_commit_settled env batch f above isExternal w with hrun | hrun | hrun <;> rw [hrun]
  · exact .inl rfl
  · exact .registered rfl hnew (by simp [Record.bare, Mask.isOpaque])
  · rw [described, ← cache_noted (recordOf batch f above isExternal (describedText env f w))
      (Url.decode (f.entry.url.getD "")) w] at *
    refine .registered rfl hnew fun hmask => .inr ?_
    rwa [isOpaque_recordOf] at hmask

/-- Where the state is after asking for something and going on from there. -/
theorem Asks.state_bind {x : Action α} {g : α → Action β} (hx : Asks x) {Q : State → Prop}
    (hw : Q w.state) (hg : ∀ a u, u.state = w.state → Q ((g a).run u).2.state) :
    Q ((x >>= g).run w).2.state := by
  have hstate := hx.state_eq w
  rw [run_bind]
  rcases hrun : x.run w with ⟨err | a, u⟩ <;> rw [hrun] at hstate
  · rwa [← hstate] at hw
  · exact hg a u hstate

/-- What recording a finding adds, whether it succeeds or fails. -/
theorem recordFinding_adds (hnew : w.state.cache.get? f.resource = none) :
    Adds f w.state.cache ((recordFinding env batch isFirst f).run w).2.state.cache := by
  have hcommit : ∀ (g : Finding) (isExternal : Bool) (u : World), g.resource = f.resource →
      g.isSymlink = f.isSymlink → u.state = w.state → Adds f w.state.cache
        ((commit env batch g (w.state.cache.nearestAbove? f.resource) isExternal).run
          u).2.state.cache := by
    intro g isExternal u hg hlink hu
    have hadds : Adds g u.state.cache
        ((commit env batch g (w.state.cache.nearestAbove? f.resource) isExternal).run
          u).2.state.cache := commit_adds (by rw [hu, hg, hnew]) _ isExternal
    unfold Adds at *
    rwa [hg, hlink, hu] at hadds
  unfold recordFinding
  rw [run_bind_ok (run_cachedAbove f.resource w)]
  split
  next habove => exact .registered rfl hnew fun _ => .inl habove
  split
  · refine (asks_queryExternal _).state_bind (Q := fun s => Adds f w.state.cache s.cache) (.inl rfl)
      fun fresh u hu => ?_
    cases fresh with
    | some fresh => exact hcommit _ true u rfl rfl hu
    | none =>
      rw [← hu] at hnew ⊢
      exact .registered rfl hnew (by simp [Record.bare, Mask.isOpaque])
  split
  · exact (asks_isExternalRoot batch f).state_bind (Q := fun s => Adds f w.state.cache s.cache)
      (.inl rfl) fun isExternal u hu => hcommit f isExternal u rfl rfl hu
  · exact hcommit f false w rfl rfl rfl

/-- Where the state is after working through an entry that was settled. -/
theorem state_fillEntry {found : Option Finding}
    (hsettle : (settle env batch project isFirst e).run w = (.ok found, v)) (p : Progress) :
    ((fillEntry env batch project isFirst e p).run w).2.state =
      match found with
      | none => v.state
      | some f =>
        if (v.state.cache.get? f.resource).isSome then v.state
        else ((recordFinding env batch isFirst f).run v).2.state := by
  unfold fillEntry
  rw [run_bind_ok hsettle]
  cases found with
  | none => rfl
  | some f =>
    dsimp only
    rw [run_bind_ok (run_cached f.resource v)]
    cases v.state.cache.get? f.resource with
    | some record => rfl
    | none =>
      simp only [pure_bind]
      rw [run_bind]
      rcases (recordFinding env batch isFirst f).run v with ⟨err | record, u⟩ <;> rfl

/-- **What working through an entry adds**, whether it succeeds or fails. -/
theorem fillEntry_adds (p : Progress) (w : World) :
    Adds (batch.finding env project e) w.state.cache
      ((fillEntry env batch project isFirst e p).run w).2.state.cache := by
  have hasks : Asks (settle env batch project isFirst e) := asks_settle batch project isFirst e
  have hstate := hasks.state_eq w
  rcases hsettle : (settle env batch project isFirst e).run w with ⟨err | found, u⟩ <;>
    rw [hsettle] at hstate
  · rw [fillEntry, run_bind, hsettle]
    exact .inl (congrArg State.cache hstate)
  · rw [state_fillEntry hsettle, ← show u.state = w.state from hstate]
    rcases run_settle hsettle with ⟨conflicts, rfl, -⟩ | ⟨rfl, -⟩
    · dsimp only
      split
      · exact .inl rfl
      next hnew => exact recordFinding_adds (f := { batch.finding env project e with
          entry := { e with conflicts := conflicts } }) (by simpa using hnew)
    · exact .inl rfl

/-- What every addition keeps, working through entries keeps. -/
theorem fillEntries_induction {Q : Cache → Prop} {entries : List Entry}
    (hadds : ∀ e ∈ entries, ∀ c c', Adds (batch.finding env project e) c c' → Q c → Q c')
    (p : Progress) (hw : Q w.state.cache) :
    Q ((fillEntries env batch project isFirst entries p).run w).2.state.cache := by
  induction entries generalizing isFirst p w with
  | nil => exact hw
  | cons e entries ih =>
    have hfirst : Q ((fillEntry env batch project isFirst e p).run w).2.state.cache :=
      hadds e List.mem_cons_self _ _ (fillEntry_adds p w) hw
    rw [fillEntries, run_bind]
    rcases hrun : (fillEntry env batch project isFirst e p).run w with ⟨err | q, u⟩ <;>
      rw [hrun] at hfirst
    · exact hfirst
    · exact ih (fun e he => hadds e (List.mem_cons_of_mem _ he)) q hfirst

/-! ### The same state, the same course -/

/-- Two runs end alike: with related results, or with the same error, and in related states. -/
def Matched (P : State → State → Prop) (Q : α → β → Prop) :
    Except Error α × World → Except Error β × World → Prop
  | (.ok a, w), (.ok b, v) => Q a b ∧ P w.state v.state
  | (.error err, w), (.error err', v) => err = err' ∧ P w.state v.state
  | _, _ => False

/-- Runs that end alike end in related states. -/
theorem Matched.state {P : State → State → Prop} {Q : α → β → Prop}
    {out : Except Error α × World} {out' : Except Error β × World} (h : Matched P Q out out') :
    P out.2.state out'.2.state := by
  rcases out with ⟨err | a, w⟩ <;> rcases out' with ⟨err' | b, v⟩
  · exact h.2
  · exact h.elim
  · exact h.elim
  · exact h.2

/-- From related states, whatever else has happened, two actions end alike. -/
def Tracks (P : State → State → Prop) (Q : α → β → Prop) (x : Action α) (y : Action β) : Prop :=
  ∀ w v, P w.state v.state → Matched P Q (x.run w) (y.run v)

namespace Tracks

variable {P : State → State → Prop} {Q : α → β → Prop} {R : γ → δ → Prop}

/-- Related results end alike. -/
theorem pure {a : α} {b : β} (h : Q a b) : Tracks P Q (pure a) (pure b) := fun _ _ hw => ⟨h, hw⟩

/-- The same failure ends alike. -/
theorem throw (err : Error) : Tracks P Q (throw err) (throw err) := fun _ _ hw => ⟨rfl, hw⟩

/-- Two actions that end alike go on with two that do. -/
theorem bind {x : Action α} {y : Action β} {f : α → Action γ} {g : β → Action δ}
    (hxy : Tracks P Q x y) (hfg : ∀ a b, Q a b → Tracks P R (f a) (g b)) :
    Tracks P R (x >>= f) (y >>= g) := by
  intro w v hw
  have hrun := hxy w v hw
  rw [run_bind, run_bind]
  rcases hx : x.run w with ⟨err | a, w'⟩ <;> rcases hy : y.run v with ⟨err' | b, v'⟩ <;>
    rw [hx, hy] at hrun
  · exact hrun
  · exact hrun.elim
  · exact hrun.elim
  · exact hfg a b hrun.1 w' v' hrun.2

/-- After the same result, two actions go on as it says. -/
theorem next {x y : Action α} {f : α → Action γ} {g : α → Action δ} (hxy : Tracks P (· = ·) x y)
    (hfg : ∀ a, Tracks P R (f a) (g a)) : Tracks P R (x >>= f) (y >>= g) :=
  hxy.bind fun a _ heq => heq ▸ hfg a

/-- A choice ends alike if both branches do. -/
theorem ite {c : Prop} [Decidable c] {x x' : Action α} {y y' : Action β} (hx : Tracks P Q x y)
    (hy : Tracks P Q x' y') : Tracks P Q (if c then x else x') (if c then y else y') := by
  split
  · exact hx
  · exact hy

/-- What an action does is told by the state that it finds. -/
theorem of_run {x : Action α} (value : State → α) (next : State → State)
    (hx : ∀ w, ∃ u, x.run w = (.ok (value w.state), u) ∧ u.state = next w.state) :
    Tracks (· = ·) (· = ·) x x := by
  intro w v hw
  obtain ⟨u, hrun, hu⟩ := hx w
  obtain ⟨u', hrun', hu'⟩ := hx v
  rw [hrun, hrun']
  exact ⟨congrArg value hw, by rw [hu, hu', hw]⟩

end Tracks

/-- In equal states the same record is found. -/
theorem tracks_cached (r : Resource) : Tracks (· = ·) (· = ·) (cached r) (cached r) :=
  .of_run (·.cache.get? r) id fun w => ⟨w, run_cached r w, rfl⟩

/-- In equal states the same record is found above. -/
theorem tracks_cachedAbove (r : Resource) :
    Tracks (· = ·) (· = ·) (cachedAbove r) (cachedAbove r) :=
  .of_run (·.cache.nearestAbove? r) id fun w => ⟨w, run_cachedAbove r w, rfl⟩

/-- Equal states change alike. -/
theorem tracks_change (f : State → State) : Tracks (· = ·) (· = ·) (change f) (change f) :=
  .of_run (fun _ => ⟨⟩) f fun w => ⟨{ w with state := f w.state }, rfl, rfl⟩

/-- In equal states a record is registered alike. -/
theorem tracks_register (record : Record) :
    Tracks (· = ·) (· = ·) (register env record) (register env record) :=
  .of_run (fun _ => env.committed record) (fun s => (registered env record { state := s }).state)
    fun w => ⟨registered env record w, run_register env record w, rfl⟩

/-- In equal states a finding is committed alike. -/
theorem tracks_commit (batch : Batch) (f : Finding) (above : Option Record) (isExternal : Bool) :
    Tracks (· = ·) (· = ·) (commit env batch f above isExternal)
      (commit env batch f above isExternal) := by
  have hsettled : ∀ reported, Tracks (· = ·) (· = ·) (settledText env f reported)
      (settledText env f reported) := fun reported =>
    .of_run (fun s => settled env f reported (s.cache.nearestAbove? f.resource)) id
      fun w => ⟨w, run_settledText f reported w, rfl⟩
  refine .ite (.pure rfl) (.ite (.next (tracks_register _) fun _ => .pure rfl)
    (.ite (.next (tracks_change _) fun _ => ?_) ?_))
  all_goals exact .next (hsettled _) fun text => .next (tracks_register _) fun record => .pure rfl

section Steady

variable (hsteady : env.backend.Steady) {P : State → State → Prop}

include hsteady

/-- A steady backend answers a status request alike, whatever the states are. -/
theorem tracks_askStatus (path : Path) (depth : Backend.Depth) (options : Backend.Options) :
    Tracks P (· = ·) (askStatus env path depth options) (askStatus env path depth options) :=
  fun w v hw => ⟨hsteady.status w.calls v.calls path depth options, hw⟩

/-- A steady backend answers a request for metadata alike, whatever the states are. -/
theorem tracks_askInfo (reference : Backend.Reference) (depth : Backend.Depth) :
    Tracks P (· = ·) (askInfo env reference depth) (askInfo env reference depth) :=
  fun w v hw => ⟨hsteady.info w.calls v.calls reference depth, hw⟩

/-- Conflicts are fetched alike, whatever the states are. -/
theorem tracks_fetchConflicts (path : Path) :
    Tracks P (· = ·) (fetchConflicts env path) (fetchConflicts env path) := by
  refine .next (tracks_askInfo hsteady _ _) fun answer => ?_
  split
  · exact .pure rfl
  · exact .throw _
  · exact .pure rfl

/-- An external is asked about alike, whatever the states are. -/
theorem tracks_queryExternal (path : Path) :
    Tracks P (· = ·) (queryExternal env path) (queryExternal env path) := by
  refine .next (tracks_askStatus hsteady _ _ _) fun answer => ?_
  split
  · exact .pure rfl
  · exact .throw _
  · exact .pure rfl

/-- A container reports its externals alike, whatever the states are. -/
theorem tracks_isExternalOf (container : Resource) (path : Path) :
    Tracks P (· = ·) (isExternalOf env container path) (isExternalOf env container path) := by
  unfold isExternalOf
  split
  · exact .pure rfl
  refine .next (tracks_askStatus hsteady _ _ _) fun answer => ?_
  split
  · exact .pure rfl
  · exact .throw _
  · exact .pure rfl

/-- What an entry is settled to be about does not depend on what is recorded. -/
theorem tracks_settle (batch : Batch) (project : Resource) (isFirst : Bool) (e : Entry) :
    Tracks P (· = ·) (settle env batch project isFirst e) (settle env batch project isFirst e) := by
  rw [settle_eq]
  exact .ite (.next (tracks_fetchConflicts hsteady _) fun conflicts => .pure rfl) (.pure rfl)

/-- In equal states the first entry is taken for an external alike. -/
theorem tracks_isExternalRoot (batch : Batch) (f : Finding) :
    Tracks (· = ·) (· = ·) (isExternalRoot env batch f) (isExternalRoot env batch f) := by
  unfold isExternalRoot
  refine .ite ?_ (.pure rfl)
  split
  · exact .pure rfl
  refine .ite (.pure rfl) (.next (tracks_cached _) fun record => ?_)
  exact .ite (.pure rfl) (tracks_isExternalOf hsteady _ _)

/-- In equal states a finding is recorded alike. -/
theorem tracks_recordFinding (batch : Batch) (isFirst : Bool) (f : Finding) :
    Tracks (· = ·) (· = ·) (recordFinding env batch isFirst f)
      (recordFinding env batch isFirst f) := by
  refine .next (tracks_cachedAbove _) fun above => ?_
  refine .ite (.next (tracks_register _) fun _ => .pure rfl) (.ite ?_ ?_)
  · refine .next (tracks_queryExternal hsteady _) fun fresh => ?_
    cases fresh with
    | some fresh => exact tracks_commit _ _ _ _
    | none => exact .next (tracks_register _) fun _ => .pure rfl
  · simp only
    split
    · exact .next (tracks_isExternalRoot hsteady batch f) fun isExternal => tracks_commit _ _ _ _
    · exact .next (.pure rfl) fun isExternal => tracks_commit _ _ _ _

/-- What is left and whether there is an error does not depend on the progress. -/
theorem tracks_fillEntry (batch : Batch) (project : Resource) (isFirst : Bool) (e : Entry)
    (p p' : Progress) : Tracks (· = ·) (fun _ _ => True)
      (fillEntry env batch project isFirst e p) (fillEntry env batch project isFirst e p') := by
  refine .next (tracks_settle hsteady batch project isFirst e) fun found => ?_
  cases found with
  | none => exact .pure trivial
  | some f =>
    refine .next (tracks_cached _) fun known => ?_
    cases known with
    | some record => exact .pure trivial
    | none =>
      simp only [pure_bind]
      exact .next (tracks_recordFinding hsteady batch isFirst f) fun record => .pure trivial

/-- In equal states entries are worked through alike, whatever was answered or deferred before. -/
theorem tracks_fillEntries (batch : Batch) (project : Resource) (isFirst : Bool)
    (entries : List Entry) (p p' : Progress) : Tracks (· = ·) (fun _ _ => True)
      (fillEntries env batch project isFirst entries p)
      (fillEntries env batch project isFirst entries p') := by
  induction entries generalizing isFirst p p' with
  | nil => exact .pure trivial
  | cons e entries ih =>
    exact .bind (tracks_fillEntry hsteady batch project isFirst e p p') fun q q' _ => ih false q q'

end Steady

/-! ### Where a run ends -/

/-- To commit a finding does not fail. -/
theorem commit_ne_error {above : Option Record} {isExternal : Bool} {err : Error} :
    (commit env batch f above isExternal).run w ≠ (.error err, w') := by
  rcases run_commit_settled env batch f above isExternal w with hrun | hrun | hrun <;> rw [hrun] <;>
    exact fun h => nomatch (Prod.mk.inj h).1

/-- If a finding cannot be recorded, nothing has changed. -/
theorem recordFinding_error {err : Error}
    (hrun : (recordFinding env batch isFirst f).run w = (.error err, w')) :
    w'.state = w.state := by
  unfold recordFinding at hrun
  rw [run_bind_ok (run_cachedAbove f.resource w)] at hrun
  split at hrun
  · cases hrun
  split at hrun
  · obtain ⟨_, -, hstate⟩ | ⟨fresh, u, -, -, hrun⟩ := (asks_queryExternal _).bind_cases hrun
    · exact hstate
    · cases fresh with
      | some fresh => exact absurd hrun commit_ne_error
      | none => cases hrun
  split at hrun
  · obtain ⟨_, -, hstate⟩ | ⟨isExternal, u, -, -, hrun⟩ :=
      (asks_isExternalRoot batch f).bind_cases hrun
    · exact hstate
    · exact absurd hrun commit_ne_error
  · exact absurd hrun commit_ne_error

/-- **What ends a run comes before anything is added** for the entry at which it ends. -/
theorem fillEntry_error {p : Progress} {err : Error}
    (hrun : (fillEntry env batch project isFirst e p).run w = (.error err, w')) :
    w'.state = w.state := by
  unfold fillEntry at hrun
  obtain ⟨_, -, hstate⟩ | ⟨found, u, -, hstate, hrun⟩ :=
    (asks_settle batch project isFirst e).bind_cases hrun
  · exact hstate
  · cases found with
    | none => cases hrun
    | some f =>
      dsimp only at hrun
      rw [run_bind_ok (run_cached f.resource u)] at hrun
      cases hcached : u.state.cache.get? f.resource with
      | some record =>
        rw [hcached] at hrun
        cases hrun
      | none =>
        rw [hcached] at hrun
        simp only [pure_bind] at hrun
        rw [run_bind] at hrun
        rcases hrecord : (recordFinding env batch isFirst f).run u with ⟨_ | record, u'⟩ <;>
          rw [hrecord] at hrun
        · cases hrun
          exact (recordFinding_error hrecord).trans hstate
        · cases hrun

/-! ### The second time -/

/-- What is left alone is not committed. -/
theorem run_commit_of_leavesAlone (hleft : env.LeavesAlone f) (batch : Batch)
    (above : Option Record) (isExternal : Bool) (w : World) :
    (commit env batch f above isExternal).run w = (.ok none, w) := by
  obtain ⟨hnew, hdir, hmetadata⟩ := hleft
  unfold commit
  simp only [hnew, hdir, hmetadata, decide_true, Bool.and_self, if_true]
  rfl

/-- What was answered once is answered again. -/
theorem Asks.run_again {x : Action α} (hx : Asks x)
    (htracks : Tracks (fun _ _ => True) (· = ·) x x) {a : α} (hrun : x.run w = (.ok a, w'))
    (v : World) : ∃ u, x.run v = (.ok a, u) ∧ u.state = v.state := by
  have hmatched := htracks w v trivial
  have hstate := hx.state_eq v
  rw [hrun] at hmatched
  rcases hagain : x.run v with ⟨_ | b, u⟩ <;> rw [hagain] at hmatched hstate
  · exact hmatched.elim
  · exact ⟨u, by rw [hmatched.1], hstate⟩

/-- **What was passed over is passed over again**, if nothing opaque has come above it. -/
theorem recordFinding_again (hsteady : env.backend.Steady) (hpassed : PassedOver env f w w')
    (hclear : ¬(v.state.cache.nearestAbove? f.resource).any (·.mask.isOpaque)) :
    ((recordFinding env batch isFirst f).run v).2.state = v.state := by
  obtain ⟨-, -, ⟨htext, hleft⟩ | ⟨htext, fresh, hquery, hleft⟩⟩ := hpassed
  · unfold recordFinding
    rw [run_bind_ok (run_cachedAbove f.resource v), if_neg hclear, if_neg htext]
    split
    · refine (asks_isExternalRoot batch f).state_bind (Q := (· = v.state)) rfl fun _ u hu => ?_
      rw [run_commit_of_leavesAlone hleft]
      exact hu
    · exact congrArg (fun out => (Prod.snd out).state)
        (run_commit_of_leavesAlone hleft batch _ false v)
  · obtain ⟨u, hagain, hstate⟩ :=
      (asks_queryExternal _).run_again (tracks_queryExternal hsteady _) hquery v
    unfold recordFinding
    rw [run_bind_ok (run_cachedAbove f.resource v), if_neg hclear, if_pos htext, run_bind_ok hagain]
    dsimp only
    rw [run_commit_of_leavesAlone hleft]
    exact hstate

/-- **An entry that was worked through adds nothing again**, in a state in which it has kept what it
got and nothing opaque has come above it. -/
theorem fillEntry_again (hsteady : env.backend.Steady)
    (hparent : (batch.finding env project e).resource.parent?.isSome) {p p' q : Progress}
    (hrun : (fillEntry env batch project isFirst e p).run w = (.ok q, w'))
    (hkept : (w'.state.cache.get? (batch.finding env project e).resource).isSome →
      (v.state.cache.get? (batch.finding env project e).resource).isSome)
    (hclear : (batch.finding env project e).kind = .dir →
      ¬(w'.state.cache.nearestAbove? (batch.finding env project e).resource).any
        (·.mask.isOpaque) →
      ¬(v.state.cache.nearestAbove? (batch.finding env project e).resource).any
        (·.mask.isOpaque)) :
    ((fillEntry env batch project isFirst e p').run v).2.state = v.state := by
  obtain ⟨found, u, hsettle, hfound⟩ := run_fillEntry hrun
  obtain ⟨u', hsettle', hstate⟩ := (asks_settle batch project isFirst e).run_again
    (tracks_settle hsteady batch project isFirst e) hsettle v
  rw [state_fillEntry hsettle']
  -- The entry is settled as before, since a steady backend answers as before.
  have hsettled := run_settle hsettle
  generalize batch.finding env project e = g at *
  rcases hsettled with ⟨conflicts, rfl, -⟩ | ⟨rfl, -⟩
  · dsimp only
    split
    · exact hstate
    next hnone =>
      rw [hstate] at hnone
      obtain ⟨hcontra, -⟩ | ⟨f, hf, hcached⟩ := hfound
      · cases hcontra
      obtain rfl := Option.some.inj hf
      rcases hcached with ⟨hcached, rfl⟩ | ⟨-, record, hrecord⟩
      · exact absurd (hkept hcached) hnone
      have hcases := recordFinding_cases (f := { g with entry := { e with conflicts := conflicts } })
        hparent hrecord
      rcases hcases with hcached | hpassed
      · exact absurd (hkept hcached) hnone
      -- It was passed over the first time, and is again if nothing opaque has come above it.
      rw [← hstate]
      refine recordFinding_again hsteady hpassed ?_
      obtain ⟨hsame, hopen, hleft⟩ := hpassed
      have hdir : g.kind = .dir := by
        rcases hleft with ⟨-, -, hdir, -⟩ | ⟨-, fresh, -, -, hdir, -⟩ <;> exact hdir
      rw [hstate]
      exact hclear hdir (by rwa [hsame])
  · exact hstate

/-- **Entries that were worked through parents first add nothing again**, whether they were all
worked through or a cancellation came in between. -/
theorem fillEntries_again (hsteady : env.backend.Steady) {entries : List Entry}
    (hparent : ∀ e ∈ entries, (batch.finding env project e).resource.parent?.isSome)
    (horder : entries.Pairwise fun e e' => (batch.finding env project e).kind = .dir →
      (batch.finding env project e').resource ∈
        (batch.finding env project e).resource.ancestors →
      (batch.finding env project e').isSymlink = false) (p p' : Progress)
    (hv : v.state = ((fillEntries env batch project isFirst entries p).run w).2.state) :
    ((fillEntries env batch project isFirst entries p').run v).2.state = v.state := by
  -- What the first entry got survives the others, which come later in the list and add only.
  induction entries generalizing isFirst p p' w v with
  | nil => rfl
  | cons e entries ih =>
    obtain ⟨hfirst, hlater⟩ := List.pairwise_cons.1 horder
    rcases hrun : (fillEntry env batch project isFirst e p).run w with ⟨err | q, u⟩
    · -- Nothing was added, so the same happens again.
      have hsame : v.state = w.state := by
        rw [hv, fillEntries, run_bind, hrun]
        exact fillEntry_error hrun
      have htracks := tracks_fillEntries hsteady batch project isFirst (e :: entries) p' p v w hsame
      exact htracks.state.trans hv.symm
    · rw [fillEntries, run_bind_ok hrun] at hv
      have hagain : ((fillEntry env batch project isFirst e p').run v).2.state = v.state := by
        refine fillEntry_again hsteady (hparent e List.mem_cons_self) hrun (fun hsome => ?_)
          fun hdir hclear => ?_
        · rw [hv]
          exact fillEntries_induction
            (Q := fun c => (c.get? (batch.finding env project e).resource).isSome)
            (fun e' _ c c' hadds hsome => hadds.isSome_get? hsome) q hsome
        · rw [hv]
          exact fillEntries_induction (Q := fun c =>
              ¬(c.nearestAbove? (batch.finding env project e).resource).any (·.mask.isOpaque))
            (fun e' he' c c' hadds hclear => hadds.not_isOpaque (hfirst e' he' hdir) hclear) q
            hclear
      rw [fillEntries, run_bind]
      rcases hrun' : (fillEntry env batch project isFirst e p').run v with ⟨err | q', u'⟩ <;>
        rw [hrun'] at hagain
      · exact hagain
      · have hu' : u'.state = v.state := hagain
        rw [← hu'] at hv ⊢
        exact ih (fun e he => hparent e (List.mem_cons_of_mem _ he)) hlater q q' hv

/-- What is left after working through a batch is what is left after its entries. -/
theorem state_fill (hproject : batch.resource.project? = some project) (w : World) :
    ((fill env batch).run w).2.state =
      ((fillEntries env batch project true batch.entries {}).run w).2.state := by
  unfold fill
  rw [hproject]
  dsimp only
  rw [run_bind]
  rcases (fillEntries env batch project true batch.entries {}).run w with ⟨err | p, u⟩ <;> rfl

/-- What is recorded stays while a batch is worked through, and what is new is about its entries. -/
theorem fill_adds (hproject : batch.resource.project? = some project) (w : World) :
    (∀ r record, w.state.cache.get? r = some record →
      ((fill env batch).run w).2.state.cache.get? r = some record) ∧
    ∀ r, w.state.cache.get? r = none →
      (((fill env batch).run w).2.state.cache.get? r).isSome →
      ∃ e ∈ batch.entries, (batch.finding env project e).resource = r := by
  rw [state_fill hproject]
  refine ⟨fun r record hget => ?_, fun r hnone hsome => ?_⟩
  · exact fillEntries_induction (Q := fun c => c.get? r = some record)
      (fun e _ c c' hadds => hadds.get?_eq_some) {} hget
  · refine fillEntries_induction (Q := fun c => (c.get? r).isSome →
      ∃ e ∈ batch.entries, (batch.finding env project e).resource = r) (fun e he c c' hadds hc => ?_)
      {} (by simp [hnone]) hsome
    intro hsome'
    by_cases hbefore : (c.get? r).isSome
    · exact hc hbefore
    · exact ⟨e, he, hadds.eq_of_isSome (by simpa using hbefore) hsome'⟩

/-- **Working through the answer of a load only adds, and adding twice is adding once.** What is
recorded stays as it is, also if a cancellation ends the run, and each new record is about what an
entry is about. If the requested resource is not linked, and different names on the ways to the
entries read differently, then with the same answers of the backend working through the batch again
changes nothing. -/
theorem fill_adds_once (hplain : ∀ s ∈ r.segments, '/' ∉ s.toList)
    (hparent : r.parent? = some parent) (hproject : r.project? = some project)
    (hbinding : env.host.binding? project = some binding) (hhost : env.host.Faithful project)
    {start finish : World}
    (hbatch : (askVersioned env r parent binding depth).run start = (.ok (some batch), finish))
    (w : World) :
    let w' := ((fill env batch).run w).2
    (∀ k record, w.state.cache.get? k = some record →
      w'.state.cache.get? k = some record) ∧
    (∀ k, w.state.cache.get? k = none → (w'.state.cache.get? k).isSome →
      ∃ e ∈ batch.entries, (batch.finding env project e).resource = k) ∧
    (env.host.isLinked r = false → (∀ e ∈ batch.entries, e.path.DescendsByBytes batch.root) →
      batch.Legible → env.backend.Steady →
      ∀ v : World, v.state = w'.state → ((fill env batch).run v).2.state = w'.state) := by
  obtain rfl := (batch_of_askVersioned hbatch).1
  obtain ⟨hkept, hnew⟩ := @fill_adds env batch project hproject w
  refine ⟨hkept, hnew, fun hlinked hbelow hlegible hsteady v hv => ?_⟩
  have hloaded := (loaded_of_askVersioned hplain hparent hproject hbinding hhost hlinked hbatch
    hbelow hlegible).2
  rw [← hv, state_fill hproject]
  rw [state_fill hproject] at hv
  exact fillEntries_again hsteady (fun e _ => hloaded.isSome_parent?_finding e)
    hloaded.parents_first {} {} hv

/-- The backend cancels when it is asked about a node that is gone. What was recorded until then stays,
and working through the answer again ends there again. -/
theorem fill_adds_once_cancelled :
    let gone : Entry := { path := ⟨"wc/x"⟩, kind := .none, text := .normal }
    let env := Checkout.lookupEnv []
      { status := [("wc", .ok [Checkout.root, gone])], info := [("wc/x", .error .cancelled)] }
    let batch := Checkout.batch [Checkout.root, gone]
    let w := Checkout.world
    let w' := ((fill env batch).run w).2
    ((fill env batch).run w).1.isOk = false ∧
      (w'.state.cache.get? Checkout.project).isSome ∧
      ∀ v : World, v.state = w'.state → ((fill env batch).run v).2.state = w'.state := by
  intro gone env batch w w'
  have hcancelled : ((fill env batch).run w).1.isOk = false := by decide +kernel
  have hfirst : (w'.state.cache.get? Checkout.project).isSome := by decide +kernel
  have hbelow : ∀ e ∈ batch.entries, e.path.Descends batch.root := by
    intro e he
    rcases List.mem_cons.1 he with rfl | he
    · exact ⟨[], by decide, by simp⟩
    · obtain rfl := List.mem_singleton.1 he
      exact ⟨["x"], by decide, by decide⟩
  obtain ⟨finish, hbatch⟩ : ∃ finish, (askVersioned env Checkout.project .root
      ⟨⟨"wc"⟩, Checkout.trunk⟩ .one).run w = (.ok (some batch), finish) :=
    ⟨_, run_askVersioned_checkout rfl (by decide +kernel)⟩
  have hstate : ((fill env batch).run w).2 = w' := rfl
  have honce := fill_adds_once (by decide) (by decide) (by decide) rfl (Checkout.faithful _) hbatch w
  clear_value w'
  rw [hstate] at honce
  exact ⟨hcancelled, hfirst, honce.2.2 (by decide) (fun e he => (hbelow e he).byBytes)
    (Batch.legible_of_descends hbelow) (Backend.Fixed.steady _)⟩

/-- **Linked resources are an exception**, which lookups do not load. The place of a linked folder is
another one than its name says, and the entry about it comes after one that is about a folder in it.
The first time that is passed over, since it is a checkout of its own; then the linked folder is
recorded as a symlink, and so the second time what is in it is recorded as forbidden. -/
theorem not_fill_adds_once_linked :
    let inner : Entry := { path := ⟨"wc/a/n"⟩, kind := .dir, text := .unversioned }
    let link : Entry := { path := ⟨"wc/z"⟩, kind := .symlink, text := .normal }
    let nodes : List (Disk.Place × Disk.Node) :=
      [(["wc", "z"], .dir 0), (["wc", "z", "n"], .dir 0), (["wc", "z", "n", ".svn"], .dir 0)]
    let env := Checkout.linkedEnv nodes { status := [("wc/z", .ok [inner, link])] }
    let batch := Checkout.linkedBatch [inner, link]
    let w' := ((fill env batch).run Checkout.world).2
    let k := Resource.folder "/p/a/n"
    (∃ finish, (askVersioned env Checkout.linked Checkout.project ⟨⟨"wc"⟩, Checkout.trunk⟩ .one).run
        Checkout.world = (.ok (some batch), finish)) ∧
      (∀ e ∈ batch.entries, e.path.Descends batch.root) ∧ env.backend.Steady ∧
      w'.state.cache.get? k = none ∧
      ∃ record, ((fill env batch).run w').2.state.cache.get? k = some record ∧
        record.text = .ignored ∧ record.mask = { forbidden := true } := by
  intro inner link nodes env batch w' k
  have hafter : (((fill env batch).run w').2.state.cache.get? k).map (fun r => (r.text, r.mask)) =
      some (.ignored, { forbidden := true }) := by decide +kernel
  obtain ⟨record, hget, hrecord⟩ := Option.map_eq_some_iff.1 hafter
  refine ⟨⟨_, run_askVersioned_linked rfl (by decide +kernel)⟩, fun e he => ?_, Backend.Fixed.steady _,
    by decide +kernel, record, hget, congrArg Prod.fst hrecord, congrArg Prod.snd hrecord⟩
  rcases List.mem_cons.1 he with rfl | he
  · exact ⟨["a", "n"], by decide, by decide⟩
  · obtain rfl := List.mem_singleton.1 he
    exact ⟨["z"], by decide, by decide⟩

/-- **Names that are no texts are an exception.** The names of a directory and of a symlink in the
working copy read alike, though they are not the same. The first time the folder in the directory is
passed over, since it is taken for a checkout of its own. The symlink comes after it, and it is taken
for the container of the folder: so the second time the folder is recorded as forbidden. -/
theorem not_fill_adds_once_alike :
    let inner : Entry :=
      { path := ⟨"wc/" ++ ⟨[0x80]⟩ ++ "/n"⟩, kind := .dir, text := .unversioned }
    let link : Entry := { path := ⟨"wc/" ++ ⟨[0xFF]⟩⟩, kind := .symlink, text := .normal }
    let entries := [Checkout.root, inner, link]
    let nodes : List (Disk.Place × Disk.Node) :=
      [(["wc", ⟨[0x80]⟩], .dir 0), (["wc", ⟨[0x80]⟩, "n"], .dir 0), (["wc", ⟨[0xFF]⟩], .link "x"),
        (["wc", "\uFFFD"], .dir 0), (["wc", "\uFFFD", "n"], .dir 0),
        (["wc", "\uFFFD", "n", ".svn"], .dir 0)]
    let env := Checkout.lookupEnv nodes { status := [("wc", .ok entries)] }
    let batch := Checkout.batch entries
    let w' := ((fill env batch).run Checkout.world).2
    let k := Resource.folder "/p/\uFFFD/n"
    (∃ finish, (askVersioned env Checkout.project .root ⟨⟨"wc"⟩, Checkout.trunk⟩ .one).run
        Checkout.world = (.ok (some batch), finish)) ∧
      (∀ e ∈ batch.entries, e.path.DescendsByBytes batch.root) ∧ env.backend.Steady ∧
      w'.state.cache.get? k = none ∧
      ∃ record, ((fill env batch).run w').2.state.cache.get? k = some record ∧
        record.text = .ignored ∧ record.mask = { forbidden := true } := by
  intro inner link entries nodes env batch w' k
  have hafter : (((fill env batch).run w').2.state.cache.get? k).map (fun r => (r.text, r.mask)) =
      some (.ignored, { forbidden := true }) := by decide +kernel
  obtain ⟨record, hget, hrecord⟩ := Option.map_eq_some_iff.1 hafter
  refine ⟨⟨_, run_askVersioned_checkout rfl (by decide +kernel)⟩, fun e he => ?_,
    Backend.Fixed.steady _, by decide +kernel, record, hget, congrArg Prod.fst hrecord,
    congrArg Prod.snd hrecord⟩
  rcases List.mem_cons.1 he with rfl | he
  · exact ⟨[], by decide, by simp⟩
  rcases List.mem_cons.1 he with rfl | he
  · exact ⟨[⟨[0x80]⟩, "n"], by decide +kernel, by decide⟩
  · obtain rfl := List.mem_singleton.1 he
    exact ⟨[⟨[0xFF]⟩], by decide +kernel, by decide⟩

end Lookup
end StatusCache
