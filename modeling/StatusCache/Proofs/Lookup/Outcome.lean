/-
# What a lookup leaves for its resource

A lookup that ends with a status has cached the very record that it answers with. One that ends
without a status mostly leaves the resource without a record, so that the next lookup starts over.
But it may give up on a resource that has one (`GivenUp`): the resource is not accessible; or its own
request fails after what is above it was looked up, and that had recorded it; or it has metadata of
its own, so that no scan looks into it, and what was asked about it before told of something that
is not versioned, or of nothing (`lookup_outcome`).
-/

import StatusCache.Proofs.Lookup.Buckets
import StatusCache.Proofs.Lookup.Lenient
import StatusCache.Proofs.Lookup.Uncached

namespace StatusCache

namespace Lookup

variable {env : Env} {r p : Resource} {depth : Depth} {binding : Binding} {w w' : World}
  {record : Record} {failure : Backend.Failure}

/-- How a lookup comes to give up on a resource. -/
inductive GivenUp (env : Env) (r : Resource) (depth : Depth) (w : World) : World → Prop
  | inaccessible (h : ¬env.isAccessible r) : GivenUp env r depth w w
  | failed {p : Resource} {above : Record} {v : World} {place : Path} {levels : Backend.Depth}
      {reason : String} (hparent : r.parent? = some p)
      (habove : (lookup env p .one).run w = (.ok above, v))
      (hplace : env.host.location? (if r.isContainer then r else p) = some place)
      (hfails : env.backend.status v.calls place levels { unchanged := true, ignored := true } =
        .error (.failed reason)) :
      GivenUp env r depth w
        { v with
          calls := .status place levels { unchanged := true, ignored := true } :: v.calls }
  | passedOver {p : Resource} {binding : Binding} {known : Option Record} {v : World}
      (hparent : r.parent? = some p) (hmetadata : env.hasMetadata r)
      (hload : (loadKnown env (lookup env p .one) r p binding depth).run w = (.ok known, v))
      (hknown : ∀ record ∈ known, record.text.isUnversioned ∧ record.text ≠ .ignored) :
      GivenUp env r depth w v

/-! ### Failing loads -/

/-- Asking for entries fails as the request fails, and is cancelled or fails in a way of its own. -/
theorem askEntries_error {place : Path} {levels : Backend.Depth}
    (hrun : (askEntries env place levels).run w = (.error (.backend failure), w'))
    (hfailure : failure ≠ .cancelled) :
    ∃ reason, env.backend.status w.calls place levels { unchanged := true, ignored := true } =
        .error (.failed reason) ∧
      w' = { w with
        calls := .status place levels { unchanged := true, ignored := true } :: w.calls } := by
  have hask : (askStatus env place levels { unchanged := true, ignored := true }).run w =
      (.ok (env.backend.status w.calls place levels { unchanged := true, ignored := true }),
        { w with
          calls := .status place levels { unchanged := true, ignored := true } :: w.calls }) := rfl
  rw [askEntries, run_bind_ok hask] at hrun
  rcases hanswer : env.backend.status w.calls place levels
    { unchanged := true, ignored := true } with cause | entries <;> rw [hanswer] at hrun
  · cases cause with
    | cancelled =>
      cases hrun
      exact absurd rfl hfailure
    | failed reason =>
      cases hrun
      exact ⟨reason, rfl, rfl⟩
    | _ => cases hrun
  · cases hrun

/-- A load fails as its request fails. -/
theorem loadVersioned_error
    (hrun : (loadVersioned env r p binding depth).run w = (.error (.backend failure), w'))
    (hfailure : failure ≠ .cancelled) :
    ∃ place levels reason, env.host.location? (if r.isContainer then r else p) = some place ∧
      env.backend.status w.calls place levels { unchanged := true, ignored := true } =
        .error (.failed reason) ∧
      w' = { w with
        calls := .status place levels { unchanged := true, ignored := true } :: w.calls } := by
  rw [loadVersioned_eq, run_bind] at hrun
  rcases hask : (askVersioned env r p binding depth).run w with ⟨e | answer, v⟩ <;>
    rw [hask] at hrun
  · cases hrun
    unfold askVersioned at hask
    simp only at hask
    split at hask
    next place requested hplace hrequested =>
      rw [run_bind] at hask
      generalize backendDepth env _ _ depth = levels at hask
      rcases hentries : (askEntries env place levels).run w with ⟨e | entries, u⟩ <;>
        rw [hentries] at hask
      · cases hask
        obtain ⟨reason, hfails, hw⟩ := askEntries_error hentries hfailure
        exact ⟨place, levels, reason, hplace, hfails, hw⟩
      · cases hask
    · cases hask
  -- With an answer in hand only a cancellation fails.
  · exfalso
    cases answer with
    | none => cases hrun
    | some batch =>
      rcases run_commitAnswer env depth batch v with ⟨e, u, hfill, hcommit⟩ |
        ⟨found, deferred, u, u', hfill, hcommit, -⟩
      · dsimp only at hrun
        rw [hcommit] at hrun
        cases hrun
        obtain ⟨_, _, cause, hcause, hcancelled, -⟩ := (stops_fill batch v).of_error
          (congrArg Prod.fst hfill)
        cases hcause
        exact hfailure hcancelled
      · dsimp only at hrun
        rw [hcommit] at hrun
        cases hrun

/-- Where nothing is learned about a resource, nothing has changed, or its own request has failed
after what is above it was looked up. -/
theorem loadKnown_error (hp : r.parent? = some p)
    (hrun : (loadKnown env (lookup env p .one) r p binding depth).run w =
      (.error (.backend failure), w')) (hfailure : failure ≠ .cancelled) :
    w'.state = w.state ∨ GivenUp env r depth w w' := by
  unfold loadKnown at hrun
  simp only [pure_bind] at hrun
  split at hrun
  · split at hrun
    · simp only [if_true] at hrun
      obtain ⟨_, _, _, -, -, rfl⟩ := loadVersioned_error hrun hfailure
      exact .inl rfl
    · rw [run_bind] at hrun
      rcases habove : (lookup env p .one).run w with ⟨e | above, v⟩ <;> rw [habove] at hrun
      · cases hrun
        obtain ⟨_, _, cause, hcause, hcancelled, -⟩ := (stops_lookup p .one w).of_error
          (congrArg Prod.fst habove)
        cases hcause
        exact absurd hcancelled hfailure
      · dsimp only at hrun
        split at hrun
        · obtain ⟨place, levels, reason, hplace, hfails, rfl⟩ := loadVersioned_error hrun hfailure
          exact .inr (.failed hp habove hplace hfails)
        · cases hrun
  · cases hrun

/-! ### Outcomes -/

/-- How a lookup ends: with a record that is cached now, or without a status; then the resource has
no record, or the lookup has given up on it. -/
inductive Outcome (env : Env) (r : Resource) (depth : Depth) (w : World) : Record → World → Prop
  | answered {record : Record} {w' : World} (hvalid : ¬record.isInvalid)
      (hcached : w'.state.cache.get? r = some record) : Outcome env r depth w record w'
  | unknown {w' : World} (hnone : w'.state.cache.get? r = none) :
      Outcome env r depth w (Record.invalid r) w'
  | givenUp {w' : World} (h : GivenUp env r depth w w') :
      Outcome env r depth w (Record.invalid r) w'

section Valid

variable (henabled : env.options.cacheEnabled) (hself : ¬env.host.Holds r r)
  (hvalid : ∀ record, w'.state.cache.get? r = some record → ¬record.isInvalid)

include hself hvalid

/-- What is known is answered, and anything else is scanned, unless scans pass over it. -/
theorem orScan_outcome (hp : r.parent? = some p) (hinternal : ¬env.host.isInternal r)
    {known : Option Record} {v : World}
    (hknown : (loadKnown env (lookup env p .one) r p binding depth).run w = (.ok known, v))
    (hrun : (orScan env r depth known).run v = (.ok record, w')) :
    Outcome env r depth w record w' := by
  have hr : r.parent?.isSome := by rw [hp]; rfl
  have hcommitted : Ensures (fun _ => True) (Backed r)
      (loadKnown env (lookup env p .one) r p binding depth) := by
    rw [loadKnown_eq]
    exact .bind (ensures_askKnown _ r p binding depth) fun answer w u w' hanswer hcommit =>
      ensures_commitAnswer hr depth hanswer w u w' trivial hcommit
  have hbacked := hcommitted w known v trivial hknown
  -- A scan that passes over the resource is the one way to leave it without a record.
  have hscan : (∀ record ∈ known, record.text.isUnversioned ∧ record.text ≠ .ignored) →
      (scanUnversioned env r (env.host.isLinked r) depth).run v = (.ok record, w') →
      Outcome env r depth w record w' := by
    intro hforeign hscanned
    by_cases hpass : env.passesOver r
    · rw [run_scanUnversioned_of_passesOver hpass] at hscanned
      cases hscanned
      have hmetadata : env.hasMetadata r := by
        rw [Env.passesOver, Bool.or_eq_true] at hpass
        exact hpass.resolve_left hinternal
      exact .givenUp (.passedOver hp hmetadata hknown hforeign)
    · have hcached := ensures_scan_cached hr hself hpass _ depth v record w' trivial hscanned
      exact .answered (hvalid record hcached) hcached
  cases known with
  | none => exact hscan (by simp) hrun
  | some found =>
    unfold orScan at hrun
    dsimp only at hrun
    split at hrun
    next hforeign => exact hscan (by simpa using hforeign) hrun
    · cases hrun
      have hcached := hbacked record rfl
      exact .answered (hvalid record hcached) hcached

include henabled

/-- A load that succeeds answers, or leaves what was not known unknown, or gives up. -/
theorem loadSubtree_outcome (hp : r.parent? = some p) (hmiss : w.state.cache.get? r = none)
    (hrun : (loadSubtree env (lookup env p .one) r p depth).run w = (.ok record, w')) :
    Outcome env r depth w record w' := by
  unfold loadSubtree at hrun
  split at hrun
  · cases hrun
    exact .unknown hmiss
  next binding _ =>
    split at hrun
    · cases hrun
      exact .unknown hmiss
    next hinternal =>
      simp only [henabled, Bool.not_true, Bool.false_eq_true, if_false] at hrun
      rw [run_bind] at hrun
      rcases hknown : (loadKnown env (lookup env p .one) r p binding depth).run w with
        ⟨e | known, v⟩ <;> rw [hknown] at hrun
      · cases hrun
      · exact orScan_outcome hself hvalid hp hinternal hknown hrun

omit hself hvalid

/-- A load that fails leaves what was not known unknown, or gives up. -/
theorem loadSubtree_error (hp : r.parent? = some p) (hmiss : w.state.cache.get? r = none)
    (hrun : (loadSubtree env (lookup env p .one) r p depth).run w =
      (.error (.backend failure), w')) (hfailure : failure ≠ .cancelled) :
    Outcome env r depth w (Record.invalid r) w' := by
  unfold loadSubtree at hrun
  split at hrun
  · cases hrun
  next binding _ =>
    split at hrun
    · cases hrun
    · simp only [henabled, Bool.not_true, Bool.false_eq_true, if_false] at hrun
      rw [run_bind] at hrun
      rcases hknown : (loadKnown env (lookup env p .one) r p binding depth).run w with
        ⟨e | known, v⟩ <;> rw [hknown] at hrun
      · cases hrun
        rcases loadKnown_error hp hknown hfailure with hstate | hgiven
        · exact .unknown (hstate ▸ hmiss)
        · exact .givenUp hgiven
      · -- A scan does not ask, so nothing can fail there.
        have hends : Stops env.backend (fun _ => False) (orScan env r depth known) :=
          stops_orScan r depth known
        obtain ⟨_, _, _, -, hcontra, -⟩ := (hends v).of_error (congrArg Prod.fst hrun)
        exact hcontra.elim

include hself hvalid

/-- **How a lookup ends.** It answers with what is cached then, or it leaves a resource that had no
record without one, or it gives up. -/
theorem lookup_outcome (hw : ∀ record, w.state.cache.get? r = some record → ¬record.isInvalid)
    (hrun : (lookup env r depth).run w = (.ok record, w')) :
    Outcome env r depth w record w' := by
  by_cases hr : env.isAccessible r
  · cases hcached : w.state.cache.get? r with
    | some known =>
      rw [run_lookup_of_cached henabled hr hcached] at hrun
      cases hrun
      exact .answered (hw record hcached) hcached
    | none =>
      rw [lookup, run_cachedOr_of_not_cached hcached] at hrun
      cases hp : r.parent? with
      | none =>
        rw [reload, Resource.ancestors_of_parent?_none hp] at hrun
        cases hrun
        exact .unknown hcached
      | some p =>
        rw [reload_of_parent? hp, if_pos hr, orInvalid, run_tryCatch] at hrun
        rcases hload : (loadSubtree env (lookup env p .one) r p depth).run w with
          ⟨e | found, v⟩ <;> rw [show cachedOr env p (reload env p .one) = lookup env p .one from rfl,
            hload] at hrun
        · obtain ⟨_, _, failure, rfl, -⟩ :=
            (stops_loadSubtree (stops_lookup p .one) r p depth w).of_error (congrArg Prod.fst hload)
          cases failure with
          | cancelled => cases hrun
          | _ =>
            cases hrun
            exact loadSubtree_error henabled hp hcached hload (by simp)
        · cases hrun
          exact loadSubtree_outcome henabled hself hvalid hp hcached hload
  · rw [run_lookup_of_inaccessible hr] at hrun
    cases hrun
    exact .givenUp (.inaccessible hr)

end Valid

end Lookup
end StatusCache
