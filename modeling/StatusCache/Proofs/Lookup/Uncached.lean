/-
# Lookups without a cache

Without a cache a lookup starts from nothing, and so does the first lookup with one. On the way up
from a resource the two then do the same, except that a scan of a container takes in its members
where there is a cache, and leaves them alone where there is none. Both lookups come down again
through the members, one of which they are about. So they answer alike unless the record that a scan
has left there makes a difference (`reload_uncached`).

That is settled container by container. If a container is versioned, it was not scanned. If it is
new, linked or ignored, the backend is not asked about its members, and the record that its scan
leaves is the one that the member would get anyway, unless the backend has reported the member all
the same (`Harmless`).
-/

import StatusCache.Proofs.Host
import StatusCache.Proofs.Lookup.Agree
import StatusCache.Proofs.Lookup.Scan

namespace StatusCache

namespace Lookup

variable {env : Env} {α β : Type} {t r p c : Resource} {w w' v v' : World} {record : Record}

/-! ### Runs that meet -/

/-- Two runs end with the same result, of which something holds in the worlds they leave, or with
the same mishap. -/
def Meet (Q : α → World → World → Prop) :
    Except Error α × World → Except Error α × World → Prop
  | (.ok a, v), (.ok b, v') => a = b ∧ Q a v v'
  | (.error e, _), (.error e', _) => e = e' ∧ Mishap e
  | _, _ => False

/-- Runs that end alike with the same result meet. -/
theorem Alike.meet {D : Resource → Prop} {x y : Except Error α × World}
    (h : Alike D (· = ·) x y) : Meet (fun _ => Agree D) x y := by
  obtain ⟨e | a, v⟩ := x <;> obtain ⟨e' | b, v'⟩ := y
  · exact ⟨h.1, h.2.1⟩
  · exact h.elim
  · exact h.elim
  · exact h

namespace Meet

variable {Q : α → World → World → Prop} {R : β → World → World → Prop}

/-- What holds where two runs meet may be told more loosely. -/
theorem mono {x y : Except Error α × World} (h : Meet Q x y) {S : α → World → World → Prop}
    (hQ : ∀ a v v', Q a v v' → S a v v') : Meet S x y := by
  obtain ⟨e | a, v⟩ := x <;> obtain ⟨e' | b, v'⟩ := y
  · exact h
  · exact h.elim
  · exact h.elim
  · exact ⟨h.1, hQ a v v' h.2⟩

/-- Runs that meet go on with runs that do. -/
theorem bind {x y : Action α} {f g : α → Action β} (h : Meet Q (x.run w) (y.run w'))
    (hfg : ∀ a v v', Q a v v' → Meet R ((f a).run v) ((g a).run v')) :
    Meet R ((x >>= f).run w) ((y >>= g).run w') := by
  rw [run_bind, run_bind]
  rcases hx : x.run w with ⟨e | a, v⟩ <;> rcases hy : y.run w' with ⟨e' | b, v'⟩ <;>
    rw [hx, hy] at h
  · exact h
  · exact h.elim
  · exact h.elim
  · obtain ⟨rfl, hQ⟩ := h
    exact hfg a v v' hQ

/-- A mishap leaves the resource invalid. -/
theorem orInvalid {load load' : Action Record} {Q : Record → World → World → Prop}
    (h : Meet Q (load.run w) (load'.run w')) (hinvalid : ∀ v v', Q (Record.invalid r) v v') :
    ∃ record v v', (orInvalid r load).run w = (.ok record, v) ∧
      (Lookup.orInvalid r load').run w' = (.ok record, v') ∧ Q record v v' := by
  rcases hx : load.run w with ⟨e | a, v⟩ <;> rcases hy : load'.run w' with ⟨e' | b, v'⟩ <;>
    rw [hx, hy] at h
  · obtain ⟨rfl, he⟩ := h
    exact ⟨_, v, v', run_orInvalid_of_mishap hx he r, run_orInvalid_of_mishap hy he r,
      hinvalid v v'⟩
  · exact h.elim
  · exact h.elim
  · obtain ⟨rfl, hQ⟩ := h
    exact ⟨a, v, v', run_orInvalid_of_ok hx r, run_orInvalid_of_ok hy r, hQ⟩

end Meet

/-! ### What is left for the next resource -/

/-- A resource will be scanned alike: on the way up to the target the worlds agree, except perhaps
on the resource itself, and there it makes no difference. -/
structure Ready (env : Env) (t r : Resource) (v v' : World) : Prop where
  agree : Agree (fun k => k ∈ t.lineage ∧ k ≠ r) v v'
  scanned : scanned env r (env.host.isLinked r) r {} v = scanned env r (env.host.isLinked r) r {} v'

/-- Where worlds agree, a resource will be scanned alike. -/
theorem Ready.of_agree (h : Agree (· ∈ t.lineage) v v') (hr : r ∈ t.lineage) :
    Ready env t r v v' :=
  ⟨h.mono fun _ hk => hk.1,
    scanned_congr (Or.inl rfl) (h.mono fun _ ha => Resource.mem_lineage_trans ha hr)⟩

/-- What two lookups of a resource leave, as far as the next one on the way down to the target sees
it. -/
structure Left (env : Env) (t r : Resource) (record : Record) (v v' : World) : Prop where
  versioned : record.baseRevision ≠ unknownRevision → Agree (· ∈ t.lineage) v v'
  plain : IsPlain record → ∀ c ∈ t.lineage, c.parent? = some r →
    v'.state.cache.get? c = none → Ready env t c v v'

/-- Lookups that leave worlds that agree leave nothing to tell them apart. -/
theorem Left.of_agree (h : Agree (· ∈ t.lineage) v v') : Left env t r record v v' :=
  ⟨fun _ => h, fun _ _ hc _ _ => .of_agree h hc⟩

/-- After an invalid record nothing more is looked at. -/
theorem Left.invalid (v v' : World) : Left env t r (Record.invalid r) v v' :=
  ⟨fun h => absurd rfl h, fun h => absurd h (by simp [IsPlain, Record.invalid, Record.bare,
    Record.status, Status.compound])⟩

/-- On the way up from the target a container has one child. -/
theorem eq_of_parent? {a b : Resource} (ha : a ∈ t.lineage) (hb : b ∈ t.lineage)
    (hap : a.parent? = some p) (hbp : b.parent? = some p) : a = b :=
  Resource.eq_of_mem_lineage ha hb (by
    rw [Resource.length_ancestors_of_parent? hap, Resource.length_ancestors_of_parent? hbp])

/-- Scanned with its members and without them, a resource gets the same record. -/
theorem scan_left (hhost : env.host.TreeAbove t) (hr : r ∈ t.lineage) (hp : r.parent? = some p)
    (h : Ready env t r w w') :
    ∃ record v v',
      (scanUnversioned env r (env.host.isLinked r) .one).run w = (.ok record, v) ∧
      (scanUnversioned env r (env.host.isLinked r) .zero).run w' = (.ok record, v') ∧
      Left env t r record v v' := by
  by_cases hpass : env.passesOver r
  · exact ⟨_, w, w', run_scanUnversioned_of_passesOver hpass _ .one w,
      run_scanUnversioned_of_passesOver hpass _ .zero w', .invalid w w'⟩
  obtain ⟨x, hone, hx⟩ := run_scanUnversioned_one hpass (hhost.members r hr) (env.host.isLinked r) w
  have hzero := run_scanUnversioned_zero hpass (env.host.isLinked r) w'
  rw [← h.scanned] at hzero
  generalize hs : scanned env r (env.host.isLinked r) r {} w = s at hone hx hzero
  have hresource : s.resource = r := by rw [← hs]; rfl
  -- What is scanned has no revision, so only the second half of `Left` says anything.
  refine ⟨env.committed s, x, registered env s w', hone, hzero, fun hversioned => ?_,
    fun hplain c hc hcp hnone => ?_⟩
  · rw [baseRevision_committed, ← hs] at hversioned
    exact absurd rfl hversioned
  have hregistered : Agree (· ∈ t.lineage) (registered env s w) (registered env s w') :=
    .registered (by rw [hresource]; exact h.agree)
  have hagree : Agree (fun k => k ∈ t.lineage ∧ k ≠ c) x (registered env s w') := by
    rintro k ⟨hk, hne⟩
    rw [← hx.others k fun hkp => hne (eq_of_parent? hk hc hkp hcp), hregistered k hk]
  have hself : (registered env s w').state.cache.get? r = some (env.committed s) := by
    rw [cache_registered, Cache.get?_put, resource_committed, hresource, hp]
    exact if_pos ⟨rfl, rfl⟩
  have hrc : r ≠ c := fun heq => parent?_ne_of_mem_lineage c.self_mem_lineage (heq ▸ hcp)
  refine ⟨hagree, ?_⟩
  -- The scan has left the record of the next resource alone, or has given it one.
  rcases hx.members c hcp with hsame | ⟨scan, hscan⟩
  · refine scanned_congr (Or.inl rfl) fun a ha => ?_
    have hat := Resource.mem_lineage_trans ha hc
    by_cases hac : a = c
    · rw [hac, hsame, hregistered c hc]
    · exact hagree a ⟨hat, hac⟩
  · refine scanned_member (w := w) hp hcp (hhost.linked c hc r hcp) rfl (hs ▸ hplain) rfl
      (hs ▸ hscan) hnone ?_ ?_
    · rw [Cache.nearestAbove?_of_parent? hcp, hagree r ⟨hr, hrc⟩, hself, hs]
      rfl
    · rw [Cache.nearestAbove?_of_parent? hcp, hself, hs]
      rfl

/-! ### Loading one resource -/

/-- What the backend says about a resource is known in both worlds, and it will be scanned alike. -/
structure Known (env : Env) (t r : Resource) (known : Option Record) (v v' : World) : Prop where
  agree : known.isSome → Agree (· ∈ t.lineage) v v'
  ready : Ready env t r v v'

/-- What is known or else scanned does not depend on whether there is a cache. -/
theorem orScan_withCache (enabled : Bool) : orScan (env.withCache enabled) = orScan env := by
  funext r depth known
  unfold orScan
  rw [scanUnversioned_withCache]
  rfl

/-- What is known or else scanned is the same with and without a cache. -/
theorem meet_orScan (hhost : env.host.TreeAbove t) (hr : r ∈ t.lineage) (hp : r.parent? = some p)
    {known : Option Record} (h : Known env t r known w w') :
    Meet (Left env t r) ((orScan env r .one known).run w)
      ((orScan (env.withCache false) r .zero known).run w') := by
  rw [orScan_withCache]
  obtain ⟨record, v, v', hone, hzero, hleft⟩ := scan_left hhost hr hp h.ready
  have hscan : Meet (Left env t r) ((scanUnversioned env r (env.host.isLinked r) .one).run w)
      ((scanUnversioned env r (env.host.isLinked r) .zero).run w') := by
    rw [hone, hzero]
    exact ⟨rfl, hleft⟩
  cases known with
  | none => exact hscan
  | some record =>
    unfold orScan
    simp only
    split
    · exact hscan
    · exact ⟨rfl, .of_agree (h.agree rfl)⟩

section Loads

variable (hb : env.backend.Steady) (hcalm : env.backend.Calm)

include hb hcalm

/-- The backend is told to know the same with and without a cache. -/
theorem meet_loadVersioned (hr : r ∈ t.lineage) (parent : Resource) (binding : Binding)
    (h : Agree (· ∈ t.lineage) w w') :
    Meet (Known env t r) ((loadVersioned env r parent binding .one).run w)
      ((loadVersioned (env.withCache false) r parent binding .zero).run w') := by
  have hdepth : ∀ isRoot isContainer, backendDepth (env.withCache false) isRoot isContainer .zero =
      backendDepth env isRoot isContainer .one := by
    intro isRoot isContainer
    cases isRoot <;> simp [backendDepth, Env.withCache]
  have halike := follows_loadVersioned hb hcalm (upward_lineage t) hr parent binding false hdepth
    w w' h
  exact halike.meet.mono fun _ _ _ hv => ⟨fun _ => hv, .of_agree hv hr⟩

/-- Given how the parent is looked up, the backend is asked about a resource alike. -/
theorem meet_loadKnown {parent : Resource} {lookupParent lookupParent' : Action Record}
    (hr : r ∈ t.lineage) (binding : Binding) (h : Agree (· ∈ t.lineage) w w')
    (hparent : parent.kind ≠ .root → ∃ above v v',
      lookupParent.run w = (.ok above, v) ∧ lookupParent'.run w' = (.ok above, v') ∧
      (Agree (· ∈ t.lineage) v v' ∨ mayHoldVersioned above = false ∧ Ready env t r v v')) :
    Meet (Known env t r) ((loadKnown env lookupParent r parent binding .one).run w)
      ((loadKnown (env.withCache false) lookupParent' r parent binding .zero).run w') := by
  have hnone : ∀ v v', Ready env t r v v' →
      Meet (Known env t r) ((pure none : Action (Option Record)).run v)
        ((pure none : Action (Option Record)).run v') := fun v v' hready =>
    ⟨rfl, ⟨by simp, hready⟩⟩
  have hhost : (env.withCache false).host = env.host := rfl
  unfold loadKnown
  simp only [hhost]
  by_cases hask : ((decide (parent.kind = .root) || env.host.isPresent parent) &&
      !env.host.isLinked r) = true
  · rw [if_pos hask, if_pos hask]
    by_cases hroot : parent.kind = .root
    · simp only [hroot, if_true]
      exact meet_loadVersioned hb hcalm hr parent binding h
    · simp only [hroot, if_false]
      obtain ⟨above, v, v', hrun, hrun', hcase⟩ := hparent hroot
      rw [run_bind_ok hrun, run_bind_ok hrun']
      simp only [pure_bind]
      rcases hcase with hagree | ⟨hmay, hready⟩
      · split
        · exact meet_loadVersioned hb hcalm hr parent binding hagree
        · exact hnone v v' (.of_agree hagree hr)
      · simp only [hmay, Bool.false_eq_true, if_false]
        exact hnone v v' hready
  · rw [if_neg hask, if_neg hask]
    exact hnone w w' (.of_agree h hr)

/-- A resource is loaded alike, given how its parent is looked up. Without a cache this starts by
dropping what is cached. -/
theorem meet_loadSubtree (henabled : env.options.cacheEnabled) (hhost : env.host.TreeAbove t)
    {lookupParent lookupParent' : Action Record} (hr : r ∈ t.lineage) (hp : r.parent? = some p)
    (hw : w.state.cache = {}) (hw' : w'.state.cache = {})
    (hparent : p.kind ≠ .root → ∃ above v v',
      lookupParent.run w = (.ok above, v) ∧ lookupParent'.run w' = (.ok above, v') ∧
      (Agree (· ∈ t.lineage) v v' ∨ mayHoldVersioned above = false ∧ Ready env t r v v'))
    (depth : Depth) :
    Meet (Left env t r) ((loadSubtree env lookupParent r p .one).run w)
      ((loadSubtree (env.withCache false) lookupParent' r p depth).run w') := by
  -- Nothing is cached on either side, so dropping the cache changes nothing.
  have hagree : Agree (· ∈ t.lineage) w w' := fun k _ => by rw [hw, hw']
  have hinvalid : Meet (Left env t r) ((pure (Record.invalid r) : Action Record).run w)
      ((pure (Record.invalid r) : Action Record).run w') := ⟨rfl, .invalid w w'⟩
  have hdisabled : (env.withCache false).options.cacheEnabled = false := rfl
  have hclear : (change fun s => { s with cache := {} }).run w' = (.ok (), w') := by
    rw [← hw']
    rfl
  cases hbinding : r.project?.bind env.host.binding? with
  | none =>
    have hbinding' : r.project?.bind (env.withCache false).host.binding? = none := hbinding
    rw [loadSubtree, loadSubtree, hbinding, hbinding']
    exact hinvalid
  | some binding =>
    have hbinding' : r.project?.bind (env.withCache false).host.binding? = some binding := hbinding
    rw [loadSubtree, loadSubtree, hbinding, hbinding']
    by_cases hinternal : env.host.isInternal r = true
    · have hinternal' : (env.withCache false).host.isInternal r = true := hinternal
      simp only [hinternal, hinternal', if_true]
      exact hinvalid
    · have hinternal' : ¬(env.withCache false).host.isInternal r = true := hinternal
      simp only [hinternal, hinternal', henabled, hdisabled, Bool.not_true, Bool.not_false,
        Bool.false_eq_true, if_false, if_true]
      rw [run_bind_ok hclear]
      exact (meet_loadKnown hb hcalm hr binding hagree hparent).bind fun known v v' hknown =>
        meet_orScan hhost hr hp hknown

end Loads

/-! ### Lookups -/

/-- A reload looks up the parent first. -/
theorem reload_of_parent? (hp : r.parent? = some p) (depth : Depth) :
    reload env r depth =
      if env.isAccessible r then
        orInvalid r (loadSubtree env (cachedOr env p (reload env p .one)) r p depth)
      else pure (Record.invalid r) := by
  rw [reload, Resource.ancestors_of_parent? hp, reloadBelow]
  rfl

/-- What the lookups of a container leave makes no difference to a child: the container is
versioned, or it is plain and the child has no record without a cache. -/
def Harmless (env : Env) (b c : Resource) : Prop :=
  ∀ w w' record v v', w.state.cache = {} → w'.state.cache = {} →
    (reload env b .one).run w = (.ok record, v) →
    (reload (env.withCache false) b .one).run w' = (.ok record, v') →
    record.baseRevision ≠ unknownRevision ∨ IsPlain record ∧ v'.state.cache.get? c = none

/-- **From nothing, a resource is looked up alike with and without a cache**, if on the way to it no
container hands on anything that makes a difference. -/
theorem reload_uncached (hb : env.backend.Steady) (hcalm : env.backend.Calm)
    (henabled : env.options.cacheEnabled) (hhost : env.host.TreeAbove t)
    (hharmless : ∀ c ∈ t.lineage, ∀ b ∈ c.parent?, b.kind ≠ .root → Harmless env b c)
    (hr : r ∈ t.lineage) (hw : w.state.cache = {}) (hw' : w'.state.cache = {}) (depth : Depth) :
    ∃ record v v', (reload env r .one).run w = (.ok record, v) ∧
      (reload (env.withCache false) r depth).run w' = (.ok record, v') ∧
      Left env t r record v v' := by
  induction r using Resource.parent_induction generalizing depth with
  | step r ih =>
    cases hp : r.parent? with
    | none =>
      have hnone : r.ancestors = [] := Resource.ancestors_of_parent?_none hp
      simp only [reload, hnone]
      exact ⟨_, w, w', rfl, rfl, .invalid w w'⟩
    | some p =>
      rw [reload_of_parent? hp, reload_of_parent? hp]
      have haccessible : (env.withCache false).isAccessible r = env.isAccessible r := rfl
      rw [haccessible]
      split
      · refine (meet_loadSubtree hb hcalm henabled hhost hr hp hw hw' ?_ depth).orInvalid .invalid
        intro hroot
        have hpt : p ∈ t.lineage := upward_lineage t r p hr hp
        obtain ⟨above, v, v', hrun, hrun', hleft⟩ := ih p hp hpt .one
        refine ⟨above, v, v', ?_, ?_, ?_⟩
        · rw [run_cachedOr_of_not_cached (by rw [hw, Cache.get?_empty]), hrun]
        · rw [run_cachedOr_of_not_cached (by rw [hw', Cache.get?_empty]), hrun']
        · rcases hharmless r hr p hp hroot w w' above v v' hw hw' hrun hrun' with
            hversioned | ⟨hplain, hnone⟩
          · exact Or.inl (hleft.versioned hversioned)
          · exact Or.inr ⟨hplain.mayHoldVersioned, hleft.plain hplain r hr hp hnone⟩
      · exact ⟨_, w, w', rfl, rfl, .invalid w w'⟩

end Lookup
end StatusCache
