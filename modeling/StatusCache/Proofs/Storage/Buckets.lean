/-
# Loaded and empty, or never loaded

A container with an empty bucket is taken to have no children that the backend knows, and one without
a bucket to have never been looked into. Both are nearly true (`buckets_of_loads`). An empty bucket
stems from an answer of the backend with one node, but that node may be all that was asked for, it
may lie below the container, and in place of an answer a working copy that needs a cleanup counts
too. A container that was looked into has a bucket, unless it lies outside of version control with
no members but those that scans pass over, or the backend gives several nodes for it and those that
are children are left out.
-/

import StatusCache.Proofs.Checkout
import StatusCache.Proofs.Lookup.Buckets
import StatusCache.Proofs.Storage.Children

open Relation (ReflTransGen)

namespace StatusCache

namespace Lookup

/-- The answer to a request that takes in the children gives nothing strictly below the place. -/
def Childless (place : Path) (depth : Backend.Depth)
    (answer : Except Backend.Failure (List Entry)) : Prop :=
  (depth = .immediates ∨ depth = .infinity) ∧
    ∃ entries, answer = .ok entries ∧ ∀ e ∈ entries, e.path.startsWith place → e.path.same place

/-- One node that tells nothing about children: only the place itself was asked for, or the node lies
strictly below it, or it stands for a failure. -/
def Silent (place : Path) (depth : Backend.Depth)
    (answer : Except Backend.Failure (List Entry)) : Prop :=
  (∃ e, answer = .ok [e] ∧ (depth = .empty ∨ e.path.startsWith place ∧ ¬e.path.same place)) ∨
    ∃ path, answer = .error (.cleanupRequired path)

/-- One node shows that there are no children, or tells nothing about them. -/
theorem Lone.cases {place : Path} {depth : Backend.Depth}
    {answer : Except Backend.Failure (List Entry)} (h : Lone place depth answer) :
    Childless place depth answer ∨ Silent place depth answer := by
  obtain ⟨hdepth, ⟨e, rfl⟩ | hcleanup⟩ := h
  · by_cases hsilent : depth = .empty ∨ e.path.startsWith place ∧ ¬e.path.same place
    · exact .inr (.inl ⟨e, rfl, hsilent⟩)
    · rw [not_or, not_and, not_not] at hsilent
      obtain ⟨hempty, hself⟩ := hsilent
      refine .inl ⟨?_, [e], rfl, fun e' he' => by rwa [List.mem_singleton.1 he']⟩
      cases depth with
      | empty => exact absurd rfl hempty
      | files => exact absurd rfl hdepth
      | immediates => exact .inl rfl
      | infinity => exact .inr rfl
  · exact .inr (.inr hcleanup)

end Lookup

namespace Storage

variable {env : Env} {s s' : Session} {c : Resource}

/-! ### Empty buckets -/

/-- From one session to another requests are made, and a container whose bucket is empty had an empty
bucket before, or the backend gave one node for it. -/
structure Fills (env : Env) (s s' : Session) : Prop where
  calls : s.calls <:+ s'.calls
  buckets : ∀ c, s'.storage.state.cache.buckets.get? c = some [] →
    s.storage.state.cache.buckets.get? c = some [] ∨
      env.backend.Answered env.host [] s'.calls c Lookup.Lone

/-- Empty buckets of a whole run are accounted for if those of its steps are. -/
theorem fills_of_steps (h : ReflTransGen (Fills env) s s') : Fills env s s' := by
  induction h with
  | refl => exact ⟨List.suffix_rfl, fun _ => .inl⟩
  | tail _ hlast ih =>
    refine ⟨ih.calls.trans hlast.calls, fun c hc => ?_⟩
    rcases hlast.buckets c hc with hbefore | hanswered
    · exact (ih.buckets c hbefore).imp_right fun hanswered => hanswered.later hlast.calls
    · exact .inr hanswered

/-- Empty buckets of a lookup in the storage are accounted for. -/
theorem fills_runLookup {load : Lookup.Env → Lookup.Action Record}
    (hload : ∀ e, Moves (Lookup.Fills e) (load e)) : Moves (Fills env) (runLookup env load) := by
  refine moves_runLookup_of (fun s w w' hstate hcalls h => ⟨hcalls ▸ h.calls, fun c hc => ?_⟩)
    (fun s q => ⟨List.suffix_rfl, fun _ => .inl⟩) hload
  rw [← hstate]
  exact h.buckets c hc

/-- All lookups of a storage account for their empty buckets. -/
theorem fills_lookups (env : Env) : LookupsMove env (Fills env) where
  lookup r depth := fills_runLookup fun _ => Lookup.fills_lookup r depth
  reload r depth := fills_runLookup fun _ => Lookup.fills_reload r depth

/-- A refresh takes buckets away, and leaves the others as they are. -/
theorem buckets_of_refresh {k : Resource} {bucket : List Resource} (rs : List Resource)
    (depth : Depth) {st : State}
    (h : (rs.foldl (refreshOne depth) st).cache.buckets.get? k = some bucket) :
    st.cache.buckets.get? k = some bucket := by
  induction rs generalizing st with
  | nil => exact h
  | cons r rs ih =>
    have hdrop : ∀ {c : Cache}, (c.invalidate r depth).2.buckets.get? k = some bucket →
        c.buckets.get? k = some bucket := fun {c} =>
      Cache.drop_induction (motive := fun c' => c'.buckets.get? k = some bucket →
        c.buckets.get? k = some bucket) (fun _ _ hc h => hc (Cache.buckets_of_removeBucket h)) r id
    have hone := ih h
    unfold refreshOne at hone
    simp only at hone
    split at hone
    · exact hdrop (Cache.buckets_of_removeBucket hone)
    · exact hdrop hone

/-- An operation that looks things up or refreshes them. -/
def Operation.Loads : Operation → Prop
  | lookup .. | reload .. | status _ | children _ | fetch _ | refresh .. => True
  | _ => False

/-- What looks up or refreshes accounts for the buckets that are empty then. -/
theorem Operation.fills (env : Env) (s : Session) {op : Operation} (h : op.Loads) :
    Fills env s (op.run env s) := by
  have hlookups := fills_lookups env
  cases op with
  | lookup r depth => exact fills_of_steps (hlookups.lookup r depth s)
  | reload r depth => exact fills_of_steps (hlookups.reload r depth s)
  | status r => exact fills_of_steps (moves_status_of hlookups r s)
  | children container => exact fills_of_steps (moves_children_of hlookups container s)
  | fetch job => exact fills_of_steps (moves_fetch_of hlookups job s)
  | refresh rs depth => exact ⟨List.suffix_rfl, fun c hc => .inl (buckets_of_refresh _ depth hc)⟩
  | _ => exact h.elim

/-- **Every empty bucket was accounted for** by an answer of the backend, in whose surroundings the
container had a place. -/
theorem answered_of_empty (config : Config) (now : Int) {ops : List (Env × Operation)}
    (hops : ∀ step ∈ ops, step.2.Loads)
    (hs : ({ storage := make config now } : Session).run ops = s)
    (hempty : s.storage.state.cache.buckets.get? c = some []) :
    ∃ step ∈ ops, step.1.backend.Answered step.1.host [] s.calls c Lookup.Lone := by
  have hinvariant : ∀ k, s.storage.state.cache.buckets.get? k = some [] →
      ∃ step ∈ ops, step.1.backend.Answered step.1.host [] s.calls k Lookup.Lone := by
    rw [← hs]
    refine Session.run_induction (I := fun s => ∀ k,
      s.storage.state.cache.buckets.get? k = some [] →
        ∃ step ∈ ops, step.1.backend.Answered step.1.host [] s.calls k Lookup.Lone) ?_ ?_
    · intro env op s hmem ih k hk
      have hfills := Operation.fills env s (hops (env, op) hmem)
      rcases hfills.buckets k hk with hbefore | hanswered
      · obtain ⟨step, hstep, hanswered⟩ := ih k hbefore
        exact ⟨step, hstep, hanswered.later hfills.calls⟩
      · exact ⟨(env, op), hmem, hanswered⟩
    · intro k hk
      simp [make, Table.get?] at hk
  exact hinvariant c hempty

/-! ### Missing buckets -/

/-- A container that was looked into for its children has a bucket, unless it has no status, or there
was nothing to list, or the backend has answered with several nodes for it and those that are about a
child were omitted. -/
theorem bucket_of_children {found : List Resource} (hcontainer : c.isContainer)
    (hproject : c.project?.isSome) (hrun : (children env c).run s = (.ok found, s')) :
    s'.storage.state.cache.hasBucket c ∨
      (∃ record, ((runLookup env fun e => Lookup.reload e c .one).run s).1 = .ok record ∧
        (record.isInvalid ∨ Lookup.Unlisted (lookupEnv env s.storage) c record)) ∨
      env.backend.Answered env.host s.calls s'.calls c
        (Lookup.Untold (lookupEnv env s.storage) s.calls s'.calls c) := by
  rcases (exists_of_run_children hproject hrun).2 with ⟨hbucket, rfl⟩ | ⟨record, hload⟩
  · exact .inl hbucket
  · obtain ⟨w, hreload, hstate, hcalls, -⟩ := exists_of_run_runLookup hload
    rw [hload, hstate, hcalls]
    by_cases hinvalid : record.isInvalid
    · exact .inr (.inl ⟨record, rfl, .inl hinvalid⟩)
    · exact (Lookup.bucket_of_reload hcontainer hreload hinvalid).imp_right
        (.imp_left fun h => ⟨record, rfl, .inr h⟩)

/-- **What buckets tell.** Backend, host and disk may be different ones at every operation.

* If the bucket of a container is empty, then the backend has answered a request for the container
  and its children with no node strictly below it, or it gave one node that tells nothing about
  children.
* After the children of a container were asked for, with success, it has a bucket, unless it is left
  without a status, or it has no revision and all its members are passed over (or there is no
  cache), or the backend has answered with several nodes and each that is about a child was omitted
  while the answer was worked through. -/
theorem buckets_of_loads (config : Config) (now : Int) {ops : List (Env × Operation)}
    (hops : ∀ step ∈ ops, step.2.Loads)
    (hs : ({ storage := make config now } : Session).run ops = s) :
    (∀ c, s.storage.state.cache.buckets.get? c = some [] →
      ∃ step ∈ ops, step.1.backend.Answered step.1.host [] s.calls c Lookup.Childless ∨
        step.1.backend.Answered step.1.host [] s.calls c Lookup.Silent) ∧
    ∀ env c found s', c.isContainer → c.project?.isSome → (children env c).run s = (.ok found, s') →
      s'.storage.state.cache.hasBucket c ∨
      (∃ record, ((runLookup env fun e => Lookup.reload e c .one).run s).1 = .ok record ∧
        (record.isInvalid ∨ Lookup.Unlisted (lookupEnv env s.storage) c record)) ∨
      env.backend.Answered env.host s.calls s'.calls c
        (Lookup.Untold (lookupEnv env s.storage) s.calls s'.calls c) := by
  refine ⟨fun c hempty => ?_, fun env c found s' hcontainer hproject hrun =>
    bucket_of_children hcontainer hproject hrun⟩
  obtain ⟨step, hstep, place, depth, older, hplace, hstart, hcalls, hlone⟩ :=
    answered_of_empty config now hops hs hempty
  refine ⟨step, hstep, hlone.cases.imp (fun h => ?_) fun h => ?_⟩
  · exact ⟨place, depth, older, hplace, hstart, hcalls, h⟩
  · exact ⟨place, depth, older, hplace, hstart, hcalls, h⟩

/-- A folder that needs a cleanup is taken to have no children. -/
theorem buckets_of_loads_cleanup :
    let env := Checkout.env [(["wc", "a"], .dir 0), (["wc", "a", "f"], .file [] 0)]
      { status := [("wc", .ok [Checkout.root]), ("wc/a", .error (.cleanupRequired ⟨"wc/a"⟩))] }
    let s := Checkout.start.run [(env, .status (.folder "/p/a"))]
    let c := Resource.folder "/p/a"
    s.storage.state.cache.buckets.get? c = some [] ∧
      env.backend.Answered env.host [] s.calls c Lookup.Silent := by
  intro env s c
  have hempty : s.storage.state.cache.buckets.get? c = some [] := by
    unfold c s env
    decide +kernel
  have hplace : env.host.location? c = some ⟨"wc/a"⟩ := by
    unfold c env
    decide +kernel
  have hops : ∀ step ∈ [(env, Operation.status (.folder "/p/a"))], step.2.Loads := by
    simp [Operation.Loads]
  obtain ⟨hbuckets, -⟩ := buckets_of_loads {} 0 (s := s) hops rfl
  obtain ⟨step, hstep, hanswered⟩ := hbuckets c hempty
  obtain rfl := List.mem_singleton.1 hstep
  refine ⟨hempty, hanswered.resolve_left ?_⟩
  rintro ⟨place, depth, older, hlocated, -, -, -, entries, hentries, -⟩
  rw [hplace] at hlocated
  obtain rfl := Option.some.inj hlocated
  have hfails : env.backend.status older ⟨"wc/a"⟩ depth { unchanged := true, ignored := true } =
      .error (.cleanupRequired ⟨"wc/a"⟩) := rfl
  rw [hfails] at hentries
  cases hentries

end Storage
end StatusCache
