/-
# Cached records are canonical

A cached record never says that nothing can be said, its properties are normal, modified or
conflicting, a status without provenance has none, and no folder for build output is obstructed
(`Record.IsCanonical`). Committing takes care of the last two. The first two depend on what is found:
an entry reports one of the other statuses, and a scan takes its statuses from cached records, of the
resource it starts from and of the containers above. So that a scan finds nothing else is known only
from what was cached before, and `cached_canonical` follows the whole run of a storage.

Which folders are for build output is the one thing that the hosts of a run have to agree on.
-/

import StatusCache.Proofs.Checkout
import StatusCache.Proofs.Storage.Operation

open Relation (ReflTransGen)

namespace StatusCache

/-- A record as a cache holds it, given which resources are folders for build output. -/
structure Record.IsCanonical (isOutput : Resource → Bool) (record : Record) : Prop where
  text : record.text ≠ .internalInvalid
  prop : record.prop ∈ [Status.normal, .modified, .conflicting]
  provenance : record.text ∈ [Status.new, .ignored, .notExists, .linked] →
    record.revision = -1 ∧ record.author = none ∧ record.date = 0
  obstructed : record.text = .obstructed → ¬isOutput record.resource

/-- With less build output a record stays canonical. -/
theorem Record.IsCanonical.mono {isOutput isOutput' : Resource → Bool} {record : Record}
    (h : record.IsCanonical isOutput) (houtput : ∀ r, isOutput' r → isOutput r) :
    record.IsCanonical isOutput' where
  text := h.text
  prop := h.prop
  provenance := h.provenance
  obstructed hobstructed hr := h.obstructed hobstructed (houtput record.resource hr)

/-! ### Statuses that are found -/

namespace Status

/-- What a backend reports is never the status for a failed lookup. -/
theorem ofText_ne (prop text : EntryStatus) (incoming : Bool) :
    ofText prop text incoming ≠ .internalInvalid := by
  cases text <;> cases incoming <;> cases prop <;> decide

/-- Properties are unchanged, modified or in conflict. -/
theorem ofProp_mem (prop : EntryStatus) : ofProp prop ∈ [Status.normal, .modified, .conflicting] := by
  cases prop <;> decide

/-- Properties never make the status for a failed lookup. -/
theorem compound_ne {text : Status} (h : text ≠ .internalInvalid) (prop : Status) :
    compound text prop ≠ .internalInvalid := by
  unfold compound
  split
  · decide
  · decide
  · exact h

/-- The statuses without provenance. -/
theorem lacksProvenance_iff {s : Status} :
    s.lacksProvenance ↔ s ∈ [Status.new, .ignored, .notExists, .linked] := by
  cases s <;> decide

end Status

namespace Lookup

variable {env : Env} {r : Resource} {above known : Option Record} {status : Status}
  {isOutput : Resource → Bool} {w w' : World}

/-- An entry is never reported with the status for a failed lookup. -/
theorem reportedText_ne (entry : Entry) : reportedText entry ≠ .internalInvalid := by
  unfold reportedText
  split
  · decide
  · exact Status.ofText_ne _ _ _

/-- A node takes over nothing but three statuses from above. -/
theorem inherited_ne (h : status ≠ .internalInvalid) : inherited above status ≠ .internalInvalid := by
  unfold inherited
  split
  · decide
  · decide
  · decide
  · exact h

/-- Delegation never makes the status for a failed lookup. -/
theorem delegated_ne (h : status ≠ .internalInvalid) :
    delegated env r above status ≠ .internalInvalid := by
  unfold delegated
  split
  · decide
  split
  · exact h
  · exact inherited_ne h

/-- What an entry reports is settled as a valid status. -/
theorem settled_ne (f : Finding) (h : status ≠ .internalInvalid) :
    settled env f status above ≠ .internalInvalid := by
  have hdelegated : delegated env f.resource above .new ≠ .internalInvalid :=
    delegated_ne (by decide)
  unfold settled
  simp only
  split_ifs <;> first | assumption | decide

/-- A scan starts from the status of a cached record, if there is one. -/
theorem unversioned_ne {isLinked : Bool} (h : ∀ record ∈ known, record.text ≠ .internalInvalid) :
    unversioned env r isLinked known above ≠ .internalInvalid := by
  unfold unversioned
  split
  · decide
  split
  · decide
  split
  · decide
  split
  next record => exact Status.compound_ne (h record rfl) _
  · exact inherited_ne (by decide)

/-- A scan never makes the status for a failed lookup. -/
theorem scannedText_ne {origin node : Resource} (h : status ≠ .internalInvalid) :
    scannedText env origin node status above ≠ .internalInvalid := by
  have hfound : (if above.any (·.mask.symlink) then .ignored else status) ≠ .internalInvalid := by
    split
    · decide
    · exact h
  unfold scannedText
  simp only
  split
  · exact hfound
  · exact delegated_ne hfound

/-! ### Committing -/

/-- **What is committed is canonical**, if its statuses are valid. An obstructed folder for build
output is reclassified first, and so loses its provenance. -/
theorem isCanonical_committed {record : Record} (htext : record.text ≠ .internalInvalid)
    (hprop : record.prop ∈ [Status.normal, .modified, .conflicting]) :
    (env.committed record).IsCanonical env.host.isBuildOutput := by
  have hcanonical : ∀ record : Record, record.text ≠ .internalInvalid →
      record.prop ∈ [Status.normal, .modified, .conflicting] →
      (record.text = .obstructed → ¬env.host.isBuildOutput record.resource) →
      record.canonical.IsCanonical env.host.isBuildOutput := by
    intro record htext hprop hobstructed
    unfold Record.canonical
    split
    next hlacks => exact ⟨htext, hprop, fun _ => ⟨rfl, rfl, rfl⟩, hobstructed⟩
    next hlacks =>
      exact ⟨htext, hprop, fun h => absurd (Status.lacksProvenance_iff.2 h) hlacks, hobstructed⟩
  unfold Env.committed
  simp only
  split
  · split
    · exact hcanonical _ (by simp) hprop (by simp)
    · exact hcanonical _ (by simp) hprop (by simp)
  next hnone => exact hcanonical record htext hprop fun h houtput => hnone ⟨h, houtput⟩

end Lookup

namespace Storage

variable {env : Env} {s : Session} {st st' : State} {r : Resource} {record : Record}
  {isOutput : Resource → Bool} {e : Lookup.Env} {w w' : Lookup.World}

/-- Every cached record is canonical, and that of the resource it is found under. -/
def Canonical (isOutput : Resource → Bool) (c : Cache) : Prop :=
  ∀ r record, c.get? r = some record → record.resource = r ∧ record.IsCanonical isOutput

/-- Putting in a canonical record keeps the records canonical. -/
theorem Canonical.put {c : Cache} (h : Canonical isOutput c) {written : Record}
    (hwritten : written.IsCanonical isOutput) : Canonical isOutput (c.put written) := by
  intro r record hget
  rcases get?_put_cases hget with ⟨hresource, -, rfl⟩ | ⟨-, hget⟩
  · exact ⟨hresource, hwritten⟩
  · exact h r record hget

/-- Taking records away keeps the others canonical. -/
theorem Canonical.shrinks (h : Canonical isOutput st.cache) (hshrinks : Shrinks st st') :
    Canonical isOutput st'.cache :=
  fun r record hget => h r record (hshrinks.records hget)

/-- **Every turn of a lookup keeps cached records canonical.** -/
theorem Canonical.turn (h : Canonical isOutput w.state.cache)
    (houtput : ∀ r, isOutput r → e.host.isBuildOutput r) (hturn : Lookup.Turn e w w') :
    Canonical isOutput w'.state.cache := by
  cases hturn with
  | ask => exact h
  | leave => exact h
  | ignore r mask hmask =>
    exact h.put ((Lookup.isCanonical_committed (by simp [Record.bare])
      (by simp [Record.bare])).mono houtput)
  | scan origin isLinked node scan =>
    have hknown : ∀ record ∈ w.state.cache.get? origin, record.text ≠ .internalInvalid :=
      fun record hrecord => (h origin record hrecord).2.text
    refine h.put ((Lookup.isCanonical_committed ?_ (by simp [Lookup.scanned, Record.bare])).mono
      houtput)
    exact Lookup.scannedText_ne (Lookup.unversioned_ne hknown)
  | describe batch f isExternal hnew =>
    rw [Lookup.described, Lookup.cache_registered, Lookup.cache_noted]
    exact h.put ((Lookup.isCanonical_committed (Lookup.settled_ne f (Lookup.reportedText_ne _))
      (Status.ofProp_mem _)).mono houtput)
  | ensure container => exact fun r record hget => h r record (by simpa using hget)
  | clear => exact fun r record hget => by simp at hget

/-- What an operation does to the shared state keeps cached records canonical. -/
theorem Canonical.alters (h : Canonical isOutput st.cache)
    (houtput : ∀ r, isOutput r → env.host.isBuildOutput r) (halters : Alters env st st') :
    Canonical isOutput st'.cache := by
  cases halters with
  | look hhost hturn => exact h.turn (hhost ▸ houtput) hturn
  | refresh _ rs depth => exact h.shrinks (shrinks_refresh rs depth st)
  | forget _ project => exact h.shrinks (shrinks_forgotten project st)
  | wrap => exact h
  | observe => exact h

/-- An operation keeps cached records canonical, for any folders that its host takes to be for build
output. -/
theorem Canonical.run_of_subset (h : Canonical isOutput s.storage.state.cache)
    (houtput : ∀ r, isOutput r → env.host.isBuildOutput r) (op : Operation) :
    Canonical isOutput (op.run env s).storage.state.cache :=
  op.state_induction (I := fun st => Canonical isOutput st.cache)
    (fun _ _ halters hst => hst.alters houtput halters) (fun _ _ hst => hst) h

/-- Every operation keeps the records canonical. -/
theorem Canonical.run (h : Canonical isOutput s.storage.state.cache)
    (houtput : env.host.isBuildOutput = isOutput) (op : Operation) :
    Canonical isOutput (op.run env s).storage.state.cache :=
  h.run_of_subset (fun _ hr => houtput ▸ hr) op

/-- **Every cached record is canonical**, whatever a storage has been asked or told. Backend and disk
may be different ones at every operation, and so may all that the host says, but for which folders
are for build output. -/
theorem cached_canonical (config : Config) (now : Int) (ops : List (Env × Operation))
    (houtput : ∀ env op, (env, op) ∈ ops → env.host.isBuildOutput = isOutput)
    (hget : (({ storage := make config now } : Session).run ops).storage.state.cache.get? r =
      some record) :
    record.resource = r ∧ record.IsCanonical isOutput := by
  have hstart : Canonical isOutput (make config now).state.cache := fun r record hget => by
    simp [make] at hget
  have hrun : Canonical isOutput
      (({ storage := make config now } : Session).run ops).storage.state.cache :=
    Session.run_induction (I := fun s => Canonical isOutput s.storage.state.cache)
      (fun env op s hop hs => hs.run (houtput env op hop) op) hstart
  exact hrun r record hget

/-- A folder for build output that the backend reports as obstructed, with an author and a date, and
that is looked up without a cache first. -/
theorem cached_canonical_output :
    let target : Entry :=
      { path := ⟨"wc/target"⟩, kind := .dir, text := .obstructed, prop := .modified, revision := 7,
        lastChanged := 6, author := some "ann", date := 5 }
    let env : Env :=
      { Checkout.env [(["wc", "target"], .dir 0)]
          { status := [("wc", .ok [Checkout.root]), ("wc/target", .ok [target])] } with
        host := { Checkout.workspace with outputs := ["target"] }.host
          (Checkout.disk [(["wc", "target"], .dir 0)]) }
    let r := Resource.folder "/p/target"
    let ops : List (Env × Operation) :=
      [(env, .enableCache false), (env, .status r), (env, .enableCache true), (env, .status r)]
    let record : Record :=
      { Record.bare r .ignored {} with prop := .modified, baseRevision := 7 }
    (Checkout.start.run ops).storage.state.cache.get? r = some record ∧
      record.resource = r ∧ record.IsCanonical env.host.isBuildOutput := by
  intro target env r ops record
  have hget : (Checkout.start.run ops).storage.state.cache.get? r = some record := by
    unfold record ops r env target
    decide +kernel
  have houtput : ∀ e op, (e, op) ∈ ops → e.host.isBuildOutput = env.host.isBuildOutput := by
    intro e op hop
    simp only [ops, List.mem_cons, List.not_mem_nil, or_false, Prod.mk.injEq] at hop
    rcases hop with ⟨rfl, -⟩ | ⟨rfl, -⟩ | ⟨rfl, -⟩ | ⟨rfl, -⟩ <;> rfl
  exact ⟨hget, cached_canonical {} 0 ops houtput hget⟩

end Storage
end StatusCache
