/-
# What a scan leaves behind

A scan registers the resource that it starts from, and at depth one also its members. What a node is
registered as (`scanned`) follows from the records of that resource and of the containers above, so
the members do not see each other, and the order in which they are visited does not matter
(`Scattered`).

When a member is scanned later on its own account, its record is read back. Mostly this makes no
difference: below a resource that is new, linked or ignored, a member is registered with the status
that it would inherit without a record (`scanned_member`). Any other status is handed down too, but
would not be inherited.
-/

import StatusCache.Proofs.Lookup.Alike

namespace StatusCache

namespace Lookup

variable {env : Env} {origin node c r : Resource} {isLinked : Bool} {scan : Scan} {u w x : World}
  {record : Record}

/-! ### Single nodes -/

/-- A node of a scan is registered as it is found, and the first one is kept. -/
theorem run_registerUnversioned (env : Env) (origin : Resource) (isLinked : Bool)
    (node : Resource) (scan : Scan) (w : World) :
    ∃ scan' : Scan, scan'.first =
        (scan.first <|> some (env.committed (scanned env origin isLinked node scan w))) ∧
      (registerUnversioned env origin isLinked node scan).run w =
        (.ok scan', registered env (scanned env origin isLinked node scan w) w) :=
  ⟨_, rfl, rfl⟩

/-- Without levels below it, a node that is not passed over is registered. -/
theorem run_visit_zero (hpass : ¬env.passesOver node) (origin : Resource) (isLinked : Bool)
    (scan : Scan) (w : World) :
    ∃ scan' : Scan, scan'.first =
        (scan.first <|> some (env.committed (scanned env origin isLinked node scan w))) ∧
      (visit env origin isLinked 0 node scan).run w =
        (.ok scan', registered env (scanned env origin isLinked node scan w) w) := by
  obtain ⟨scan', hfirst, hrun⟩ := run_registerUnversioned env origin isLinked node scan w
  refine ⟨scan', hfirst, ?_⟩
  rw [visit, if_neg hpass, run_bind_ok hrun]
  rfl

/-- What is on the way up from a resource is none of its children. -/
theorem parent?_ne_of_mem_lineage {a : Resource} (ha : a ∈ r.lineage) : a.parent? ≠ some r := by
  intro hp
  have habove := Resource.length_ancestors_of_parent? hp
  have hle := Resource.length_ancestors_le ha
  omega

/-- What a node is registered as depends on the records of the resource that the scan starts from
and of what is above. -/
theorem scanned_congr (hnode : node = origin ∨ node.parent? = some origin)
    (h : Agree (· ∈ origin.lineage) u x) :
    scanned env origin isLinked node scan u = scanned env origin isLinked node scan x := by
  have hself := h origin origin.self_mem_lineage
  have habove := h.nearestAbove? (upward_lineage origin) origin.self_mem_lineage
  have hnear : u.state.cache.nearestAbove? node = x.state.cache.nearestAbove? node := by
    rcases hnode with rfl | hp
    · exact habove
    · rw [Cache.nearestAbove?_of_parent? hp, Cache.nearestAbove?_of_parent? hp, hself, habove]
  simp only [scanned, hself, habove, hnear]

/-! ### Members -/

/-- Some members of a resource have been registered by its scan, as seen from the world after the
resource itself was. -/
structure Scattered (env : Env) (origin : Resource) (isLinked : Bool) (u x : World) : Prop where
  others : Agree (fun k => k.parent? ≠ some origin) u x
  members : ∀ k, k.parent? = some origin → x.state.cache.get? k = u.state.cache.get? k ∨
    ∃ scan, x.state.cache.get? k = some (env.committed (scanned env origin isLinked k scan u))

namespace Scattered

/-- Before any member is registered, a world is as it is. -/
theorem refl (u : World) : Scattered env origin isLinked u u :=
  ⟨.refl _ u, fun _ _ => Or.inl rfl⟩

/-- Members are not on the way up from the resource. -/
theorem lineage (h : Scattered env origin isLinked u x) : Agree (· ∈ origin.lineage) u x :=
  h.others.mono fun _ => parent?_ne_of_mem_lineage

/-- One more member. -/
theorem registered (h : Scattered env origin isLinked u x) (hnode : node.parent? = some origin)
    (scan : Scan) :
    Scattered env origin isLinked u
      (Lookup.registered env (scanned env origin isLinked node scan x) x) := by
  rw [← scanned_congr (Or.inr hnode) h.lineage]
  constructor
  · exact h.others.trans (.registered_of_not (fun hne => hne hnode) x)
  · intro k hk
    rw [cache_registered, Cache.get?_put, resource_committed]
    by_cases hkn : (scanned env origin isLinked node scan u).resource = k
    · obtain rfl : node = k := hkn
      rw [if_pos ⟨rfl, by rw [hk]; rfl⟩]
      exact Or.inr ⟨scan, rfl⟩
    · rw [if_neg fun h => hkn h.1]
      exact h.members k hk

end Scattered

/-- Visiting members leaves what was found first. -/
theorem run_members (env : Env) (origin : Resource) (isLinked : Bool) {members : List Resource}
    (hmembers : ∀ m ∈ members, m.parent? = some origin) {scan : Scan}
    (hfirst : scan.first = some record) (hx : Scattered env origin isLinked u x) :
    ∃ scan' x', (members.foldlM (fun scan m => visit env origin isLinked 0 m scan) scan).run x =
      (.ok scan', x') ∧ scan'.first = some record ∧ Scattered env origin isLinked u x' := by
  induction members generalizing scan x with
  | nil => exact ⟨scan, x, rfl, hfirst, hx⟩
  | cons m members ih =>
    have hrest := fun k hk => hmembers k (List.mem_cons_of_mem m hk)
    have hvisit : ∃ scan' x', (visit env origin isLinked 0 m scan).run x = (.ok scan', x') ∧
        scan'.first = some record ∧ Scattered env origin isLinked u x' := by
      by_cases hpass : env.passesOver m
      · exact ⟨scan, x, by rw [visit, if_pos hpass]; rfl, hfirst, hx⟩
      · obtain ⟨scan', hfirst', hrun⟩ := run_visit_zero hpass origin isLinked scan x
        exact ⟨scan', _, hrun, by rw [hfirst', hfirst]; rfl,
          hx.registered (hmembers m List.mem_cons_self) scan⟩
    obtain ⟨scan', x', hrun, hfirst', hx'⟩ := hvisit
    rw [List.foldlM_cons, run_bind_ok hrun]
    exact ih hrest hfirst' hx'

/-! ### Scans of depth zero and one -/

/-- What is passed over has no status. -/
theorem run_scanUnversioned_of_passesOver (hpass : env.passesOver r) (isLinked : Bool)
    (depth : Depth) (w : World) :
    (scanUnversioned env r isLinked depth).run w = (.ok (Record.invalid r), w) := by
  have hvisit : ∀ levels, (visit env r isLinked levels r {}).run w = (.ok {}, w) := by
    intro levels
    cases levels <;> rw [visit, if_pos hpass] <;> rfl
  rw [scanUnversioned, run_bind_ok (hvisit _)]
  rfl

/-- A scan without levels registers the resource alone. -/
theorem run_scanUnversioned_zero (hpass : ¬env.passesOver r) (isLinked : Bool) (w : World) :
    (scanUnversioned env r isLinked .zero).run w =
      (.ok (env.committed (scanned env r isLinked r {} w)),
        registered env (scanned env r isLinked r {} w) w) := by
  obtain ⟨scan, hfirst, hrun⟩ := run_visit_zero hpass r isLinked {} w
  rw [scanUnversioned, Env.levels, run_bind_ok hrun, hfirst]
  rfl

/-- A scan of depth one differs from one of depth zero in the members. -/
theorem run_scanUnversioned_one (hpass : ¬env.passesOver r)
    (hmembers : r.isContainer → ∀ m ∈ env.host.members r, m.parent? = some r) (isLinked : Bool)
    (w : World) :
    ∃ x, (scanUnversioned env r isLinked .one).run w =
        (.ok (env.committed (scanned env r isLinked r {} w)), x) ∧
      Scattered env r isLinked (registered env (scanned env r isLinked r {} w) w) x := by
  obtain ⟨scan, hfirst, hrun⟩ := run_registerUnversioned env r isLinked r {} w
  have hvisit : ∃ scan' x, (visit env r isLinked 1 r {}).run w = (.ok scan', x) ∧
      scan'.first = some (env.committed (scanned env r isLinked r {} w)) ∧
      Scattered env r isLinked (registered env (scanned env r isLinked r {} w) w) x := by
    rw [visit, if_neg hpass, run_bind_ok hrun]
    simp only
    split
    next hcontainer => exact run_members env r isLinked (hmembers hcontainer) hfirst (.refl _)
    · exact ⟨scan, _, rfl, hfirst, .refl _⟩
  obtain ⟨scan', x, hrun', hfirst', hx⟩ := hvisit
  refine ⟨x, ?_, hx⟩
  rw [scanUnversioned, Env.levels, run_bind_ok hrun', hfirst']
  rfl

/-! ### Members that are scanned again -/

/-- A record of a resource outside of version control whose status the members inherit. -/
def IsPlain (record : Record) : Prop :=
  (record.status = .new ∨ record.status = .linked ∨ record.status = .ignored) ∧
    ¬record.isUnversionedExternal

instance : DecidablePred IsPlain := fun record =>
  inferInstanceAs (Decidable ((record.status = .new ∨ record.status = .linked ∨
    record.status = .ignored) ∧ ¬record.isUnversionedExternal))

/-- The backend is not asked about the members. -/
theorem IsPlain.mayHoldVersioned (h : IsPlain record) : mayHoldVersioned record = false := by
  obtain ⟨hstatus, hexternal⟩ := h
  unfold Lookup.mayHoldVersioned
  rcases hstatus with h | h | h <;> simp [h, hexternal, Status.isForeign]

/-- What is committed without provenance has the status that was found, unless an obstructed folder
for build output is ignored or does not exist. -/
theorem status_committed_bare (env : Env) (r : Resource) (text : Status) (mask : Mask) :
    (env.committed (.bare r text mask)).status = text ∨
      text = .obstructed ∧ ((env.committed (.bare r text mask)).status = .ignored ∨
        (env.committed (.bare r text mask)).status = .notExists) := by
  have hstatus : ∀ text, (Record.bare r text mask).canonical.status = text := by
    intro text
    cases text <;> rfl
  unfold Env.committed
  simp only
  split
  next h =>
    refine Or.inr ⟨h.1, ?_⟩
    split
    · exact Or.inl (hstatus .ignored)
    · exact Or.inr (hstatus .notExists)
  · exact Or.inl (hstatus text)

/-- What a scan of a plain resource finds once that is registered: its status again, or that there
is nothing on disk below a symlink. -/
theorem unversioned_again {known above : Option Record} {mask : Mask}
    (hrecord : record = env.committed
      (.bare r (scannedText env r r (unversioned env r false known above) above) mask))
    (hplain : IsPlain record) (above' : Option Record) :
    unversioned env r false (some record) above' = record.status ∨
      record.status = .ignored ∧ unversioned env r false (some record) above' = .notExists := by
  have hstatus := status_committed_bare env r
    (scannedText env r r (unversioned env r false known above) above) mask
  rw [← hrecord] at hstatus
  obtain ⟨hplain, -⟩ := hplain
  clear hrecord
  unfold unversioned scannedText at *
  simp only [if_true, Bool.false_eq_true, if_false] at *
  split
  · split at hstatus
    all_goals grind
  split
  · grind
  · exact Or.inl rfl

/-- A member of a plain resource is registered with the status that it would inherit, unless it is
linked or the resource is a symlink. -/
theorem status_member {known above : Option Record} {mask : Mask}
    (hrecord : record = env.committed
      (.bare r (scannedText env r r (unversioned env r false known above) above) mask))
    (hplain : IsPlain record) (hsymlink : ¬record.mask.symlink) (hne : c ≠ r)
    (hlinked : ¬env.host.isLinked c) (above' : Option Record) (mask' : Mask) :
    (env.committed (.bare c (scannedText env r c
      (unversioned env r false (some record) above') (some record)) mask')).status =
      inherited (some record) .new := by
  have hagain := unversioned_again hrecord hplain above'
  generalize unversioned env r false (some record) above' = found at hagain
  have htext : scannedText env r c found (some record) = inherited (some record) .new ∧
      scannedText env r c found (some record) ≠ .obstructed := by
    unfold scannedText delegated inherited
    simp only [Option.any_some, hsymlink, hne, hlinked, if_false]
    rcases hplain.1 with h | h | h <;> rcases hagain with rfl | ⟨hi, rfl⟩ <;> simp_all
  rcases status_committed_bare env c (scannedText env r c found (some record)) mask' with h | h
  · rw [h, htext.1]
  · exact absurd h.1 htext.2

/-- **A member of a plain resource can do without its record.** Scanned on its own account, it is
registered alike with the record that the scan of the resource gave it and with none. -/
theorem scanned_member {v v' : World} {p : Resource} (hp : r.parent? = some p)
    (hc : c.parent? = some r) (hlinked : env.host.isLinked r → env.host.isLinked c)
    (hrecord : record = env.committed (scanned env r (env.host.isLinked r) r {} w))
    (hplain : IsPlain record)
    (hu : u = registered env (scanned env r (env.host.isLinked r) r {} w) w)
    (hv : v.state.cache.get? c =
      some (env.committed (scanned env r (env.host.isLinked r) c scan u)))
    (hv' : v'.state.cache.get? c = none) (habove : v.state.cache.nearestAbove? c = some record)
    (habove' : v'.state.cache.nearestAbove? c = some record) :
    scanned env c (env.host.isLinked c) c {} v = scanned env c (env.host.isLinked c) c {} v' := by
  have hne : c ≠ r := fun heq => parent?_ne_of_mem_lineage r.self_mem_lineage (heq ▸ hc)
  -- The member was registered while the record of `r` stood, and that is the one above it still.
  have hself : u.state.cache.get? r = some record := by
    rw [hu, cache_registered, Cache.get?_put, resource_committed, hp, hrecord]
    exact if_pos ⟨rfl, rfl⟩
  have hnear : u.state.cache.nearestAbove? c = some record := by
    rw [Cache.nearestAbove?_of_parent? hc, hself]
    rfl
  generalize hk : env.committed (scanned env r (env.host.isLinked r) c scan u) = k at hv
  have hexternal : k.mask.external = false := by
    rw [← hk, mask_committed]
    simp [scanned, Record.bare, scannedMask, hne]
  have htext : scannedText env c c (unversioned env c (env.host.isLinked c) (some k) (some record))
      (some record) =
      scannedText env c c (unversioned env c (env.host.isLinked c) none (some record))
        (some record) := by
    by_cases hsymlink : record.mask.symlink
    · simp [scannedText, hsymlink]
    by_cases hl : env.host.isLinked c
    · simp [unversioned, hl]
    have hstatus : k.status = inherited (some record) .new := by
      have hlr : env.host.isLinked r = false := by simpa using fun h => hl (hlinked h)
      rw [hlr] at hrecord hk
      rw [← hk, scanned, hself, hnear]
      exact status_member hrecord hplain hsymlink hne hl _ _
    simp only [unversioned, hstatus]
  simp only [scanned, hv, hv', habove, habove', htext]
  simp [scannedMask, hexternal]

end Lookup
end StatusCache
