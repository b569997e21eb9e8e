/-
# When a lookup asks the backend

A lookup goes up from a resource to the nearest container with a record, and comes down again from
there. On the way down the backend is asked about a node only if it may know what the container of
the node holds. Whether it may is told by the record that the lookup of the container answers with.
Of the container with the record that is this record, and it counts as versioned or not. Any other
container either makes the lookup ask, or it is scanned, and what is scanned is a stray
(`IsStray`): it lies outside of version control, and the backend is not asked about what it holds.
Only a container that the scan passes over gets no record, and its lookup answers with an invalid
one, which does not count as outside of version control (`exists_scanUnversioned`).

So the backend is asked just where a container opens the way to it (`Env.Opens`), and nothing on the
way down from there stops the lookup (`Env.Enters`). Flags have no part in this: a container that is
opaque is no obstacle (`decides_lookup`).
-/

import StatusCache.Proofs.Cache.Nearest
import StatusCache.Proofs.Lookup.Uncached

namespace StatusCache

namespace Lookup

variable {env : Env} {α : Type} {origin node r p d : Resource} {isLinked : Bool} {scan : Scan}
  {u w w' : World} {record above : Record} {status : Status} {known : Option Record}

/-! ### Strays -/

/-- A record of a node that lies outside of version control and is no external. -/
structure IsStray (record : Record) : Prop where
  foreign : record.status.isForeign
  external : record.mask.external = false

/-- The backend is not asked about what a stray holds. -/
theorem IsStray.mayHoldVersioned (h : IsStray record) : mayHoldVersioned record = false := by
  simp [Lookup.mayHoldVersioned, Record.isUnversionedExternal, h.foreign, h.external]

/-- What inherits a foreign status is foreign, whatever is known. -/
theorem isForeign_inherited (h : status.isForeign) : (inherited known status).isForeign := by
  unfold inherited
  split
  · rfl
  · rfl
  · rfl
  · exact h

/-- What a foreign status is delegated to is foreign. -/
theorem isForeign_delegated (h : status.isForeign) :
    (delegated env node known status).isForeign := by
  unfold delegated
  split
  · rfl
  split
  · exact h
  · exact isForeign_inherited h

/-- An unversioned node is foreign, if what is known about it is a stray. -/
theorem isForeign_unversioned {above : Option Record} (h : ∀ record ∈ known, IsStray record) :
    (unversioned env r isLinked known above).isForeign := by
  unfold unversioned
  split
  · rfl
  split
  · rfl
  split
  · rfl
  cases known with
  | some record => exact (h record rfl).foreign
  | none => exact isForeign_inherited rfl

/-- A scan that starts from a foreign status finds foreign ones. -/
theorem isForeign_scannedText {above : Option Record} (h : status.isForeign) :
    (scannedText env origin node status above).isForeign := by
  have hfound : (if above.any (·.mask.symlink) then Status.ignored else status).isForeign := by
    split
    · rfl
    · exact h
  unfold scannedText
  simp only
  split
  · exact hfound
  · exact isForeign_delegated hfound

/-- **What is scanned is a stray**, if the resource that the scan starts from has no other record. -/
theorem isStray_scanned (horigin : ∀ record ∈ w.state.cache.get? origin, IsStray record) :
    IsStray (env.committed (scanned env origin isLinked node scan w)) := by
  have hforeign : (scannedText env origin node (unversioned env origin isLinked
      (w.state.cache.get? origin) (w.state.cache.nearestAbove? origin))
      (w.state.cache.nearestAbove? node)).isForeign :=
    isForeign_scannedText (isForeign_unversioned horigin)
  constructor
  · unfold scanned
    simp only
    rcases status_committed_bare env node _ _ with h | ⟨-, h | h⟩
    · rw [h]
      exact hforeign
    · rw [h]
      rfl
    · rw [h]
      rfl
  · rw [mask_committed]
    simp only [scanned, Record.bare, scannedMask, Bool.and_eq_false_iff]
    cases hknown : w.state.cache.get? origin with
    | none => exact .inr rfl
    | some record => exact .inr (horigin record hknown).external

/-! ### What a scan leaves -/

/-- From one world to another nothing is asked, and only strays are recorded. -/
structure Quiet (w w' : World) : Prop where
  calls : w'.calls = w.calls
  strays : ∀ k record, w'.state.cache.get? k = some record →
    w.state.cache.get? k = some record ∨ IsStray record

namespace Quiet

/-- Nothing happens from a world to itself. -/
theorem refl (w : World) : Quiet w w := ⟨rfl, fun _ _ h => .inl h⟩

/-- What is quiet in two spans of time is quiet in both together. -/
theorem trans {w'' : World} (h : Quiet w w') (h' : Quiet w' w'') : Quiet w w'' where
  calls := h'.calls.trans h.calls
  strays k record hget := (h'.strays k record hget).elim (h.strays k record) .inr

/-- What was a stray, or had no record, is so afterwards. -/
theorem get? (h : Quiet w w') (hr : ∀ record ∈ w.state.cache.get? r, IsStray record) :
    ∀ record ∈ w'.state.cache.get? r, IsStray record :=
  fun record hget => (h.strays r record hget).elim (hr record) id

/-- Registering a stray is quiet. -/
theorem registered (h : IsStray (env.committed record)) (w : World) :
    Quiet w (registered env record w) where
  calls := rfl
  strays k found hget := by
    rw [cache_registered, Cache.get?_put] at hget
    split at hget
    · obtain rfl := Option.some.inj hget
      exact .inr h
    · exact .inl hget

end Quiet

/-- What quiet steps leave alone, a loop of them leaves alone. -/
theorem exists_foldlM {f : Scan → Resource → Action Scan} {I : World → Prop}
    (hf : ∀ scan m w, I w → scan.first = some record → ∃ scan' w',
      (f scan m).run w = (.ok scan', w') ∧ Quiet w w' ∧ I w' ∧ scan'.first = some record)
    (members : List Resource) (hw : I w) (hfirst : scan.first = some record) :
    ∃ scan' w', (members.foldlM f scan).run w = (.ok scan', w') ∧ Quiet w w' ∧ I w' ∧
      scan'.first = some record := by
  induction members generalizing scan w with
  | nil => exact ⟨scan, w, rfl, .refl w, hw, hfirst⟩
  | cons m members ih =>
    obtain ⟨scan', w', hrun, hquiet, hw', hfirst'⟩ := hf scan m w hw hfirst
    obtain ⟨scan'', w'', hrun', hquiet', hw'', hfirst''⟩ := ih hw' hfirst'
    exact ⟨scan'', w'', by rw [List.foldlM_cons, run_bind_ok hrun, hrun'], hquiet.trans hquiet',
      hw'', hfirst''⟩

/-- A scan does not fail and asks nothing. The first record that it commits is that of the first
node that it does not pass over. -/
theorem exists_visit (horigin : ∀ record ∈ w.state.cache.get? origin, IsStray record)
    (isLinked : Bool) (levels : Nat) (node : Resource) (scan : Scan) :
    ∃ scan' w', (visit env origin isLinked levels node scan).run w = (.ok scan', w') ∧
      Quiet w w' ∧ scan'.first = if env.passesOver node then scan.first else
        scan.first <|> some (env.committed (scanned env origin isLinked node scan w)) := by
  induction levels generalizing node scan w with
  | zero =>
    by_cases hpass : env.passesOver node
    · exact ⟨scan, w, by rw [visit, if_pos hpass]; rfl, .refl w, by rw [if_pos hpass]⟩
    · obtain ⟨scan', hfirst, hrun⟩ := run_visit_zero hpass origin isLinked scan w
      exact ⟨scan', _, hrun, .registered (isStray_scanned horigin) w, by rw [hfirst, if_neg hpass]⟩
  | succ levels ih =>
    by_cases hpass : env.passesOver node
    · exact ⟨scan, w, by rw [visit, if_pos hpass]; rfl, .refl w, by rw [if_pos hpass]⟩
    obtain ⟨scan', hfirst, hrun⟩ := run_registerUnversioned env origin isLinked node scan w
    have hquiet : Quiet w (registered env (scanned env origin isLinked node scan w) w) :=
      .registered (isStray_scanned horigin) w
    rw [visit, if_neg hpass, run_bind_ok hrun, if_neg hpass]
    simp only
    split
    · obtain ⟨record, hrecord⟩ : ∃ record, scan'.first = some record := by
        rw [hfirst]
        cases scan.first <;> exact ⟨_, rfl⟩
      obtain ⟨scan'', w'', hrun', hquiet', -, hfirst'⟩ :=
        exists_foldlM (I := fun v => ∀ record ∈ v.state.cache.get? origin, IsStray record)
          (f := fun scan m => visit env origin isLinked levels m scan)
          (fun scan m v hv hscan => by
            obtain ⟨scan', v', hrun', hquiet', hfirst'⟩ := ih hv m scan
            refine ⟨scan', v', hrun', hquiet', hquiet'.get? hv, ?_⟩
            rw [hfirst', hscan]
            split <;> rfl)
          (env.host.members node) (hquiet.get? horigin) hrecord
      exact ⟨scan'', w'', hrun', hquiet.trans hquiet', by rw [hfirst', ← hrecord, hfirst]⟩
    · exact ⟨scan', _, rfl, hquiet, hfirst⟩

/-- **A scan answers with a stray**, and with no status if it passes over the resource that it starts
from. -/
theorem exists_scanUnversioned (hr : ∀ record ∈ w.state.cache.get? r, IsStray record)
    (isLinked : Bool) (depth : Depth) :
    ∃ record w', (scanUnversioned env r isLinked depth).run w = (.ok record, w') ∧ Quiet w w' ∧
      (mayHoldVersioned record ↔ env.passesOver r) := by
  by_cases hpass : env.passesOver r
  · exact ⟨_, w, run_scanUnversioned_of_passesOver hpass isLinked depth w, .refl w,
      iff_of_true rfl hpass⟩
  · obtain ⟨scan, w', hrun, hquiet, hfirst⟩ := exists_visit hr isLinked (env.levels depth) r {}
    rw [if_neg hpass] at hfirst
    refine ⟨_, w', by rw [scanUnversioned, run_bind_ok hrun]; rfl, hquiet, iff_of_false ?_ hpass⟩
    rw [hfirst]
    exact Bool.eq_false_iff.1 (isStray_scanned hr).mayHoldVersioned

/-! ### The way down -/

/-- Nothing keeps the lookup of a resource from asking the backend, if that may know what its parent
holds: the resource is neither metadata nor linked, and its parent is on disk. -/
def Env.Enters (env : Env) (r : Resource) : Prop :=
  ¬env.host.isInternal r ∧ ¬env.host.isLinked r ∧ r.parent?.any env.host.isPresent

/-- The backend may know what a container holds, given the nearest record above the resource that
is looked up: it is the container with that record, which is versioned or an external, or a container
further down that scans pass over. -/
def Env.Opens (env : Env) (above : Record) (p : Resource) : Prop :=
  p = above.resource ∧ mayHoldVersioned above ∨ above.resource ∈ p.ancestors ∧ env.passesOver p

/-- There is a place to ask about: that of a container, or else that of its parent. -/
def Env.Located (env : Env) (r p : Resource) : Prop :=
  (env.host.location? r).isSome ∧ (env.host.location? (if r.isContainer then r else p)).isSome

/-- On the way down to a resource, a container opens the way to the backend, and nothing stops the
lookup from there. -/
def Env.Queries (env : Env) (above : Record) (r : Resource) : Prop :=
  ∃ d ∈ r.lineage, ∃ p ∈ d.parent?, env.Opens above p ∧ env.Located d p ∧
    ∀ x ∈ r.lineage, d ∈ x.lineage → env.Enters x

/-- The way down to a resource, and the last step of it. -/
theorem queries_iff (hp : r.parent? = some p) :
    env.Queries above r ↔
      env.Enters r ∧ (env.Queries above p ∨ env.Opens above p ∧ env.Located r p) := by
  have hlineage : ∀ a, a ∈ r.lineage ↔ a = r ∨ a ∈ p.lineage := fun _ =>
    Resource.mem_lineage_of_parent? hp
  constructor
  · rintro ⟨d, hd, q, hq, hopens, hlocated, henters⟩
    refine ⟨henters r r.self_mem_lineage hd, ?_⟩
    rcases (hlineage d).1 hd with rfl | hd
    · obtain rfl : p = q := Option.some.inj (hp.symm.trans hq)
      exact .inr ⟨hopens, hlocated⟩
    · exact .inl ⟨d, hd, q, hq, hopens, hlocated, fun x hx => henters x ((hlineage x).2 (.inr hx))⟩
  · rintro ⟨hr, ⟨d, hd, q, hq, hopens, hlocated, henters⟩ | ⟨hopens, hlocated⟩⟩
    · refine ⟨d, (hlineage d).2 (.inr hd), q, hq, hopens, hlocated, fun x hx hdx => ?_⟩
      rcases (hlineage x).1 hx with rfl | hx
      · exact hr
      · exact henters x hx hdx
    · refine ⟨r, r.self_mem_lineage, p, hp, hopens, hlocated, fun x hx hrx => ?_⟩
      have hlength := le_antisymm (Resource.length_ancestors_le hx) (Resource.length_ancestors_le hrx)
      rwa [Resource.eq_of_mem_lineage hx r.self_mem_lineage hlength]

/-- Above the record, and at it, nothing is asked. -/
theorem not_queries_self (env : Env) (above : Record) : ¬env.Queries above above.resource := by
  rintro ⟨d, hd, p, hp, ⟨rfl, -⟩ | ⟨hmem, -⟩, -⟩
  · exact parent?_ne_of_mem_lineage hd hp
  · have hbelow := Resource.length_ancestors_lt
      (Resource.mem_ancestors_trans hmem (Resource.parent?_mem_ancestors hp))
    exact absurd (Resource.length_ancestors_le hd) (not_le.2 hbelow)

/-! ### Lookups -/

/-- From a world, the answer to whether a lookup asks the backend, and otherwise to whether the
backend may know what the resource holds. -/
structure Decides (asks opens : Prop) (x : Action Record) (w : World) : Prop where
  asked : asks → w.calls.length < (x.run w).2.calls.length
  quiet : ¬asks → ∃ record w', x.run w = (.ok record, w') ∧ Quiet w w' ∧
    (mayHoldVersioned record ↔ opens)

/-- Whether a load fails or not, the requests are those that it made. -/
theorem calls_orInvalid (r : Resource) (load : Action Record) (w : World) :
    ((orInvalid r load).run w).2.calls = (load.run w).2.calls := by
  rw [orInvalid, run_tryCatch]
  rcases load.run w with ⟨e | record, w'⟩
  · simp only
    split <;> rfl
  · rfl

/-- What is located is asked about. -/
theorem calls_loadVersioned (hlocated : env.Located r p) (binding : Binding) (depth : Depth)
    (w : World) :
    w.calls.length < ((loadVersioned env r p binding depth).run w).2.calls.length := by
  obtain ⟨hr, htarget⟩ := hlocated
  obtain ⟨requested, hrequested⟩ := Option.isSome_iff_exists.1 hr
  obtain ⟨place, hplace⟩ := Option.isSome_iff_exists.1 htarget
  unfold loadVersioned
  simp only [hrequested, hplace]
  generalize backendDepth env _ _ _ = below
  refine lt_of_lt_of_le ?_ (List.IsSuffix.length_le (@calls_bind env _ _ _ _ ?_ w))
  · obtain ⟨result, hrun, -⟩ := run_askEntries env place below w
    rw [hrun]
    exact Nat.lt_succ_self _
  · intro entries
    have hfill : ∀ batch, Moves (Turn env) (fill env batch) := fun batch =>
      (moves_fill batch).mono fun _ _ => Write.turn
    refine .bind (hfill _) fun found => ?_
    exact .optional (fun _ w => .single (.ensure w _)) (.optional (fun _ w => .single (.leave w _))
      (.pure _))

/-- Without a place to ask about, nothing is known and nothing happens. -/
theorem run_loadVersioned_of_not_located (hlocated : ¬env.Located r p) (binding : Binding)
    (depth : Depth) (w : World) : (loadVersioned env r p binding depth).run w = (.ok none, w) := by
  unfold loadVersioned
  simp only
  split
  next place requested hplace hrequested =>
    exact absurd ⟨by rw [hrequested]; rfl, by rw [hplace]; rfl⟩ hlocated
  · rfl

section Loads

variable {binding : Binding} {lookupParent : Action Record} {depth : Depth}

/-- A resource that is entered is loaded if its parent may hold something versioned. -/
theorem loadKnown_of_enters (hp : r.parent? = some p) (hroot : p.kind ≠ .root)
    (henters : env.Enters r) :
    loadKnown env lookupParent r p binding depth = (do
      if mayHoldVersioned (← lookupParent) then loadVersioned env r p binding depth
      else return none) := by
  obtain ⟨-, hlinked, hpresent⟩ := henters
  rw [hp, Option.any_some] at hpresent
  simp [loadKnown, hroot, hlinked, hpresent]

/-- Of a resource that is not entered nothing is known. -/
theorem loadKnown_of_not_enters (hp : r.parent? = some p) (hroot : p.kind ≠ .root)
    (hinternal : ¬env.host.isInternal r) (henters : ¬env.Enters r) :
    loadKnown env lookupParent r p binding depth = pure none := by
  have hnot : ¬(env.host.isPresent p && !env.host.isLinked r) = true := fun h => by
    rw [Bool.and_eq_true, Bool.not_eq_true'] at h
    exact henters ⟨hinternal, by simp [h.2], by rw [hp]; exact h.1⟩
  simp only [loadKnown, hroot, decide_false, Bool.false_or, hnot, if_false]
  rfl

/-- With a cache, a load asks what is known and else scans. -/
theorem run_loadSubtree (henabled : env.options.cacheEnabled)
    (hbinding : r.project?.bind env.host.binding? = some binding)
    (hinternal : ¬env.host.isInternal r) :
    loadSubtree env lookupParent r p depth =
      (loadKnown env lookupParent r p binding depth >>= orScan env r depth) := by
  simp [loadSubtree, hbinding, hinternal, henabled]

/-- **Whether a resource is asked about, given how its parent is looked up.** -/
theorem decides_loadSubtree (henabled : env.options.cacheEnabled) (hp : r.parent? = some p)
    (hroot : p.kind ≠ .root) (hbinding : r.project?.bind env.host.binding? = some binding)
    (hmiss : w.state.cache.get? r = none)
    (hparent : Decides (env.Queries above p) (env.Opens above p) lookupParent w) (depth : Depth) :
    Decides (env.Queries above r) (env.passesOver r) (loadSubtree env lookupParent r p depth) w := by
  have hscan : ∀ v, Quiet w v → ∃ record w',
      (scanUnversioned env r (env.host.isLinked r) depth).run v = (.ok record, w') ∧ Quiet w w' ∧
        (mayHoldVersioned record ↔ env.passesOver r) := by
    intro v hv
    obtain ⟨record, w', hrun, hw', hrecord⟩ :=
      exists_scanUnversioned (hv.get? (r := r) (by simp [hmiss])) (env.host.isLinked r) depth
    exact ⟨record, w', hrun, hv.trans hw', hrecord⟩
  have hafter : ∀ known, Moves (Turn env) (orScan env r depth known) :=
    moves_orScan (turns_scanUnversioned r _ depth)
  have hload : ∀ record : Record, Moves (Turn env)
      (if mayHoldVersioned record then loadVersioned env r p binding depth else pure none) :=
    fun _ => .ite (turns_loadVersioned r p binding depth) (.pure _)
  rw [queries_iff hp]
  constructor
  · rintro ⟨henters, hasks⟩
    rw [run_loadSubtree henabled hbinding henters.1, loadKnown_of_enters hp hroot henters]
    refine lt_of_lt_of_le ?_ (List.IsSuffix.length_le (calls_bind hafter w))
    -- The parent has asked already, or it asks nothing and this resource is the first to ask.
    by_cases hqueries : env.Queries above p
    · exact lt_of_lt_of_le (hparent.asked hqueries) (List.IsSuffix.length_le (calls_bind hload w))
    · obtain ⟨hopens, hlocated⟩ := hasks.resolve_left hqueries
      obtain ⟨record, v, hrun, hv, hrecord⟩ := hparent.quiet hqueries
      rw [run_bind_ok hrun, if_pos (hrecord.2 hopens), ← hv.calls]
      exact calls_loadVersioned hlocated binding depth v
  · intro hasks
    -- Three ways to ask nothing: metadata, a way that is closed above, and one that is not entered.
    by_cases hinternal : env.host.isInternal r = true
    · refine ⟨Record.invalid r, w, ?_, .refl w, iff_of_true rfl ?_⟩
      · simp only [loadSubtree, hbinding, hinternal, if_true]
        rfl
      · rw [Env.passesOver, hinternal, Bool.true_or]
    rw [run_loadSubtree henabled hbinding hinternal]
    by_cases henters : env.Enters r
    · rw [not_and, not_or] at hasks
      obtain ⟨hqueries, hclosed⟩ := hasks henters
      obtain ⟨record, v, hrun, hv, hrecord⟩ := hparent.quiet hqueries
      have hnone : (loadKnown env lookupParent r p binding depth).run w = (.ok none, v) := by
        rw [loadKnown_of_enters hp hroot henters, run_bind_ok hrun]
        split
        next hmay =>
          have hlocated : ¬env.Located r p := fun h => hclosed ⟨hrecord.1 hmay, h⟩
          exact run_loadVersioned_of_not_located hlocated binding depth v
        · rfl
      rw [run_bind_ok hnone]
      exact hscan v hv
    · rw [loadKnown_of_not_enters hp hroot hinternal henters]
      exact hscan w (.refl w)

end Loads

/-- What is not shared has no status. -/
theorem run_lookup_of_unshared (hmiss : w.state.cache.get? r = none)
    (hbinding : r.project?.bind env.host.binding? = none) (depth : Depth) :
    (lookup env r depth).run w = (.ok (Record.invalid r), w) := by
  rw [lookup, run_cachedOr_of_not_cached hmiss, reload]
  cases r.ancestors with
  | nil => rfl
  | cons parent above =>
    rw [reloadBelow]
    split
    · refine run_orInvalid_of_ok ?_ r
      rw [loadSubtree, hbinding]
      rfl
    · rfl

/-- **When a lookup asks the backend.** A resource without a record, below a container with one, is
asked about if and only if some container on the way down opens the way and nothing stops the lookup
from there. Otherwise the lookup succeeds, and all that it commits are strays. -/
theorem decides_lookup (henabled : env.options.cacheEnabled) (hkeyed : w.state.cache.Keyed)
    (haccessible : env.isAccessible r) {binding : Binding}
    (hbinding : r.project?.bind env.host.binding? = some binding)
    (hmiss : w.state.cache.get? r = none) (habove : w.state.cache.nearestAbove? r = some above)
    (depth : Depth) :
    Decides (env.Queries above r) (env.passesOver r) (lookup env r depth) w := by
  -- Up the hierarchy, until the container that has the record.
  induction r using Resource.parent_induction generalizing depth with
  | step r ih =>
    cases hp : r.parent? with
    | none =>
      rw [Cache.nearestAbove?_of_parent?_none hp] at habove
      cases habove
    | some p =>
      rw [Cache.nearestAbove?_of_parent? hp, Option.or_eq_some_iff] at habove
      have hroot : p.kind ≠ .root := by
        intro hkind
        have hnone := Resource.parent?_eq_none.2 hkind
        rw [Cache.nearestAbove?_of_parent?_none hnone, Cache.get?, hnone] at habove
        simp at habove
      have hproject := Resource.project?_of_parent? hp hroot
      have haccessible' : env.isAccessible p := by rwa [Env.isAccessible, hproject]
      have hparent : Decides (env.Queries above p) (env.Opens above p) (lookup env p .one) w := by
        rcases habove with hget | ⟨hnone, habove⟩
        · -- The parent has the record: it is the answer, and nothing is asked.
          have hself : above.resource = p := hkeyed p above hget
          have hquiet : ¬env.Queries above p := hself ▸ not_queries_self env above
          refine ⟨fun hqueries => absurd hqueries hquiet, fun _ => ⟨above, w,
            run_lookup_of_cached henabled haccessible' hget .one, .refl w, ?_⟩⟩
          simp [Env.Opens, hself, Resource.not_mem_ancestors_self p]
        · have hmem : above.resource ∈ p.ancestors := hkeyed.mem_ancestors habove
          have hne : p ≠ above.resource := fun heq =>
            Resource.not_mem_ancestors_self p (by rwa [← heq] at hmem)
          have hopens : env.Opens above p ↔ env.passesOver p := by simp [Env.Opens, hne, hmem]
          rw [hopens]
          exact ih p hp haccessible' (hproject ▸ hbinding) hnone habove .one
      have hload := decides_loadSubtree henabled hp hroot hbinding hmiss hparent depth
      have hlookup : (lookup env r depth).run w =
          (orInvalid r (loadSubtree env (lookup env p .one) r p depth)).run w := by
        rw [lookup, run_cachedOr_of_not_cached hmiss, reload_of_parent? hp, if_pos haccessible]
        rfl
      constructor
      · intro hqueries
        rw [hlookup, calls_orInvalid]
        exact hload.asked hqueries
      · intro hqueries
        obtain ⟨record, w', hrun, hquiet⟩ := hload.quiet hqueries
        exact ⟨record, w', by rw [hlookup, run_orInvalid_of_ok hrun r], hquiet⟩

end Lookup
end StatusCache
