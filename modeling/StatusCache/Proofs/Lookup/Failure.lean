/-
# Where a failing backend ends a lookup

A part of a lookup runs undisturbed, with whatever answers the backend has for it short of a
cancellation, or it ends at once with the failure of the last request (`Stops`). So nothing is asked
or committed after the request that ended it. A failure that is no cancellation gets no further than
the resource at whose level it occurred: that is left without a status, and what is below it goes on
(`stops_orInvalid`). A whole lookup therefore fails if and only if it was cancelled
(`Ends.failed_iff`).
-/

import StatusCache.Proofs.Lookup.Agree

open Relation (ReflTransGen)

namespace StatusCache

namespace Backend

/-- The backend answers a request that is made after others with a failure. -/
def Fails (b : Backend) (earlier : List Call) (call : Call) (failure : Failure) : Prop :=
  match call with
  | .status path depth options => b.status earlier path depth options = .error failure
  | .info reference depth => b.info earlier reference depth = .error failure

/-- A request made after `start` was cancelled. Both lists have the newest request first. -/
def CancelsSince (b : Backend) (start calls : List Call) : Prop :=
  ∃ call older, call :: older <:+ calls ∧ start <:+ older ∧ b.Fails older call .cancelled

variable {b : Backend} {start middle calls : List Call} {call : Call}

/-- A request fails in one way at most. -/
theorem Fails.unique {failure failure' : Failure} (h : b.Fails calls call failure)
    (h' : b.Fails calls call failure') : failure = failure' := by
  cases call with
  | status path depth options => exact Except.error.inj (h.symm.trans h')
  | info reference depth => exact Except.error.inj (h.symm.trans h')

/-- Where no request was made, none was cancelled. -/
theorem not_cancelsSince_self : ¬b.CancelsSince calls calls := by
  rintro ⟨call, older, hcalls, hstart, -⟩
  have hlonger := hcalls.length_le
  have hshorter := hstart.length_le
  rw [List.length_cons] at hlonger
  omega

/-- The last request was cancelled if it failed by that. -/
theorem cancelsSince_cons_self :
    b.CancelsSince calls (call :: calls) ↔ b.Fails calls call .cancelled := by
  constructor
  · rintro ⟨call', older, hcalls, hstart, hfails⟩
    have hlength : (call' :: older).length = (call :: calls).length :=
      Nat.le_antisymm hcalls.length_le (Nat.succ_le_succ hstart.length_le)
    obtain ⟨rfl, rfl⟩ := List.cons.inj (hcalls.eq_of_length hlength)
    exact hfails
  · exact fun hfails => ⟨call, calls, List.suffix_rfl, List.suffix_rfl, hfails⟩

/-- A cancelled request was made before a moment, or since. -/
theorem CancelsSince.split (h : b.CancelsSince start calls) (hmiddle : middle <:+ calls) :
    b.CancelsSince start middle ∨ b.CancelsSince middle calls := by
  obtain ⟨call, older, hcalls, hstart, hfails⟩ := h
  rcases List.suffix_or_suffix_of_suffix hcalls hmiddle with hbefore | hsince
  · exact .inl ⟨call, older, hbefore, hstart, hfails⟩
  · rcases List.suffix_cons_iff.1 hsince with heq | hsince
    · exact .inl ⟨call, older, heq ▸ List.suffix_rfl, hstart, hfails⟩
    · exact .inr ⟨call, older, hcalls, hsince, hfails⟩

end Backend

namespace Lookup

variable {b : Backend} {env : Env} {α β : Type} {w w' w'' : World} {P Q : Backend.Failure → Prop}

/-! ### Undisturbed runs -/

/-- No request between two worlds was cancelled, and what was committed between them was committed
before the latter's next request. -/
structure Undisturbed (b : Backend) (w w' : World) : Prop where
  calls : w.calls <:+ w'.calls
  calm : ¬b.CancelsSince w.calls w'.calls
  commits : ∃ new, w'.commits = new ++ w.commits ∧ ∀ c ∈ new, c.asked ≤ w'.calls.length

namespace Undisturbed

/-- What makes no request and commits nothing is undisturbed. -/
theorem of_eq (hcalls : w'.calls = w.calls) (hcommits : w'.commits = w.commits) :
    Undisturbed b w w' where
  calls := hcalls ▸ List.suffix_rfl
  calm := hcalls ▸ Backend.not_cancelsSince_self
  commits := ⟨[], hcommits, by simp⟩

/-- Nothing disturbs a world that stays the same. -/
theorem refl (w : World) : Undisturbed b w w := of_eq rfl rfl

/-- What is undisturbed in two spans of time is undisturbed in both together. -/
theorem trans (h : Undisturbed b w w') (h' : Undisturbed b w' w'') : Undisturbed b w w'' where
  calls := h.calls.trans h'.calls
  calm hcancels := (hcancels.split h'.calls).elim h.calm h'.calm
  commits := by
    obtain ⟨new, hnew, hasked⟩ := h.commits
    obtain ⟨newer, hnewer, hasked'⟩ := h'.commits
    refine ⟨newer ++ new, by rw [hnewer, hnew, List.append_assoc], fun c hc => ?_⟩
    rcases List.mem_append.1 hc with hc | hc
    · exact hasked' c hc
    · exact Nat.le_trans (hasked c hc) h'.calls.length_le

/-- A request that is not cancelled. -/
theorem ask {call : Backend.Call} (h : ¬b.Fails w.calls call .cancelled) :
    Undisturbed b w { w with calls := call :: w.calls } where
  calls := List.suffix_cons _ _
  calm hcancels := h (Backend.cancelsSince_cons_self.1 hcancels)
  commits := ⟨[], rfl, by simp⟩

/-- Registering a record is undisturbed. -/
theorem registered (record : Record) : Undisturbed b w (registered env record w) where
  calls := List.suffix_rfl
  calm := Backend.not_cancelsSince_self
  commits := by
    refine ⟨[⟨env.committed record, w.calls.length⟩], rfl, fun c hc => ?_⟩
    obtain rfl := List.mem_singleton.1 hc
    exact Nat.le_refl _

end Undisturbed

/-! ### How a part of a lookup ends -/

/-- The failure is a cancellation. -/
abbrev Cancelled (failure : Backend.Failure) : Prop := failure = .cancelled

/-- Any failure will do. -/
abbrev Any (_ : Backend.Failure) : Prop := True

/-- A run from a world ends well, undisturbed, or with the failure of a request that comes last. -/
inductive Ends (b : Backend) (P : Backend.Failure → Prop) (w : World) :
    Except Error α × World → Prop
  | well {a : α} {w' : World} (h : Undisturbed b w w') : Ends b P w (.ok a, w')
  | failing {v : World} {call : Backend.Call} {failure : Backend.Failure}
    (h : Undisturbed b w v) (hfails : b.Fails v.calls call failure) (hP : P failure) :
    Ends b P w (.error (.backend failure), { v with calls := call :: v.calls })

section Ending

variable {out : Except Error α × World}

/-- What asks until it is cancelled fails if and only if it is cancelled. -/
theorem Ends.failed_iff (h : Ends b Cancelled w out) :
    (∃ e, out.1 = .error e) ↔ b.CancelsSince w.calls out.2.calls := by
  cases h with
  | well h =>
    constructor
    · rintro ⟨e, he⟩
      cases he
    · exact fun hcancels => absurd hcancels h.calm
  | failing h hfails hP =>
    constructor
    · exact fun _ => ⟨_, _, List.suffix_rfl, h.calls, hP ▸ hfails⟩
    · exact fun _ => ⟨_, rfl⟩

/-- The request that ends a run is the last one, no request before it was cancelled, and nothing is
committed after it. -/
theorem Ends.of_error {e : Error} (h : Ends b P w out) (he : out.1 = .error e) :
    ∃ call older failure, e = .backend failure ∧ P failure ∧ out.2.calls = call :: older ∧
      w.calls <:+ older ∧ b.Fails older call failure ∧ ¬b.CancelsSince w.calls older ∧
      ∃ new, out.2.commits = new ++ w.commits ∧ ∀ c ∈ new, c.asked ≤ older.length := by
  cases h with
  | well h => cases he
  | @failing v call failure h hfails hP =>
    obtain rfl := Except.error.inj he
    exact ⟨call, v.calls, failure, rfl, hP, rfl, h.calls, hfails, h.calm, h.commits⟩

end Ending

/-- A part of a lookup runs undisturbed, or ends with a failure of the backend that comes last. -/
def Stops (b : Backend) (P : Backend.Failure → Prop) (x : Action α) : Prop :=
  ∀ w, Ends b P w (x.run w)

namespace Stops

/-- An action that succeeds, and does not ask. -/
theorem of_run {x : Action α} (h : ∀ w, ∃ a w', x.run w = (.ok a, w') ∧ Undisturbed b w w') :
    Stops b P x := by
  intro w
  obtain ⟨a, w', hrun, hw⟩ := h w
  rw [hrun]
  exact .well hw

/-- What only looks at the world runs undisturbed. -/
theorem of_reads {x : Action α} (hx : Reads x) : Stops b P x :=
  of_run fun w => (hx w).imp fun _ ha => ⟨w, ha, .refl w⟩

/-- A value without an action runs undisturbed. -/
theorem pure (a : α) : Stops b P (pure a : Action α) := of_reads (.pure a)

/-- A change that makes no request and commits nothing runs undisturbed. -/
theorem modify {f : World → World} (hcalls : ∀ w, (f w).calls = w.calls)
    (hcommits : ∀ w, (f w).commits = w.commits) : Stops b P (modify f : Action Unit) :=
  of_run fun w => ⟨(), f w, rfl, .of_eq (hcalls w) (hcommits w)⟩

/-- A change of the state runs undisturbed. -/
theorem change (f : State → State) : Stops b P (change f) := modify (fun _ => rfl) fun _ => rfl

/-- One part after another runs undisturbed or stops, if each does. -/
theorem bind {x : Action α} {f : α → Action β} (hx : Stops b P x) (hf : ∀ a, Stops b P (f a)) :
    Stops b P (x >>= f) := by
  intro w
  have hw := hx w
  rw [run_bind]
  rcases hrun : x.run w with ⟨e | a, w'⟩ <;> rw [hrun] at hw
  · cases hw with
    | failing h hfails hP => exact .failing h hfails hP
  · cases hw with
    | well h =>
      simp only
      have hw' := hf a w'
      generalize (f a).run w' = out at hw'
      cases hw' with
      | well h' => exact .well (h.trans h')
      | failing h' hfails hP => exact .failing (h.trans h') hfails hP

/-- A choice runs undisturbed or stops, if both branches do. -/
theorem ite {c : Prop} [Decidable c] {x y : Action α} (hx : Stops b P x) (hy : Stops b P y) :
    Stops b P (if c then x else y) := by
  split
  · exact hx
  · exact hy

/-- A first part that is left out in some cases. -/
theorem optional {c : Prop} [Decidable c] {x : Action α} {y : Action β} (hx : Stops b P x)
    (hy : Stops b P y) : Stops b P (if c then x >>= fun _ => y else y) :=
  ite (bind hx fun _ => hy) hy

/-- A fold runs undisturbed or stops, if each of its turns does. -/
theorem foldlM {f : β → α → Action β} (hf : ∀ b' a, Stops b P (f b' a)) (as : List α) (b' : β) :
    Stops b P (as.foldlM f b') := by
  induction as generalizing b' with
  | nil => exact pure b'
  | cons a as ih => exact bind (hf b' a) ih

/-- What stops by some failures stops by more. -/
theorem mono {x : Action α} (hx : Stops b P x) (hPQ : ∀ failure, P failure → Q failure) :
    Stops b Q x := by
  intro w
  have hw := hx w
  generalize x.run w = out at hw
  cases hw with
  | well h => exact .well h
  | failing h hfails hP => exact .failing h hfails (hPQ _ hP)

end Stops

/-! ### The trace -/

/-- The trace lacks nothing: what is cached and was not is there. -/
def Recorded (st : State) (w : World) : Prop :=
  ∀ r record, w.state.cache.get? r = some record →
    st.cache.get? r = some record ∨ ∃ c ∈ w.commits, c.record = record

/-- What is registered is added to the trace. -/
theorem Recorded.registered {st : State} (h : Recorded st w) (record : Record) :
    Recorded st (registered env record w) := by
  intro r record' hr
  rw [cache_registered, Cache.get?_put] at hr
  have hcommits : (Lookup.registered env record w).commits =
      ⟨env.committed record, w.calls.length⟩ :: w.commits := rfl
  rw [hcommits]
  split at hr
  · exact .inr ⟨_, List.mem_cons_self, Option.some.inj hr⟩
  · exact (h r record' hr).imp_right fun ⟨c, hc, heq⟩ => ⟨c, List.mem_cons_of_mem _ hc, heq⟩

/-- No step of a lookup leaves something out of the trace. -/
theorem Recorded.step {st : State} (h : Recorded st w) (hstep : Step env w w') :
    Recorded st w' := by
  cases hstep with
  | ask => exact h
  | plain r text mask _ => exact h.registered _
  | describe batch f isExternal text _ =>
    refine Recorded.registered ?_ _
    unfold noted
    split <;> exact h
  | ensure container =>
    intro r record hr
    exact h r record (by simpa using hr)
  | clear =>
    intro r record hr
    simp at hr
  | leave => exact h

/-- **Whatever a lookup caches is in its trace.** -/
theorem recorded_of_steps {st : State} (h : Recorded st w)
    (hsteps : ReflTransGen (Step env) w w') : Recorded st w' := by
  induction hsteps with
  | refl => exact h
  | tail _ hlast ih => exact ih.step hlast

/-! ### Asking -/

/-- An answer is put to use, or its failure ends the lookup; a cancellation always does. -/
inductive Heeds (P : Backend.Failure → Prop) {γ : Type} (f : Except Backend.Failure γ → Action α) :
    Except Backend.Failure γ → Prop
  | use {answer : Except Backend.Failure γ} {a : α} (hcalm : answer ≠ .error .cancelled)
    (h : f answer = pure a) : Heeds P f answer
  | fail {failure : Backend.Failure} (hP : P failure)
    (h : f (.error failure) = throw (.backend failure)) : Heeds P f (.error failure)

/-- If the answer to a request is heeded, then a failure ends the run with that request. -/
theorem ends_ask {γ : Type} {ask : Action (Except Backend.Failure γ)} {call : Backend.Call}
    {answer : Except Backend.Failure γ} {f : Except Backend.Failure γ → Action α}
    (hrun : ask.run w = (.ok answer, { w with calls := call :: w.calls }))
    (hfails : ∀ failure, b.Fails w.calls call failure ↔ answer = .error failure)
    (hf : Heeds P f answer) : Ends b P w ((ask >>= f).run w) := by
  rw [run_bind_ok hrun]
  cases hf with
  | use hcalm h =>
    rw [h]
    exact .well (.ask fun hcancelled => hcalm ((hfails _).1 hcancelled))
  | fail hP h =>
    rw [h]
    exact .failing (.refl w) ((hfails _).2 rfl) hP

/-- A status request whose answer is heeded runs undisturbed, or its failure comes last. -/
theorem stops_askStatus {f : Except Backend.Failure (List Entry) → Action α}
    (hf : ∀ answer, Heeds P f answer) (path : Path) (depth : Backend.Depth)
    (options : Backend.Options) : Stops env.backend P (askStatus env path depth options >>= f) :=
  fun _ => ends_ask rfl (fun _ => .rfl) (hf _)

/-- A request for metadata whose answer is heeded runs undisturbed, or its failure comes last. -/
theorem stops_askInfo {f : Except Backend.Failure (List Info) → Action α}
    (hf : ∀ answer, Heeds P f answer) (reference : Backend.Reference) (depth : Backend.Depth) :
    Stops env.backend P (askInfo env reference depth >>= f) :=
  fun _ => ends_ask rfl (fun _ => .rfl) (hf _)

/-! ### Batches -/

/-- To fetch conflicts stops by a cancellation alone. -/
theorem stops_fetchConflicts (path : Path) :
    Stops env.backend Cancelled (fetchConflicts env path) := by
  refine stops_askInfo (fun answer => ?_) _ _
  rcases answer with failure | answer
  · cases failure with
    | cancelled => exact .fail rfl rfl
    | _ => exact .use (by simp) rfl
  · exact .use (by simp) rfl

/-- To ask about an external stops by a cancellation alone. -/
theorem stops_queryExternal (path : Path) :
    Stops env.backend Cancelled (queryExternal env path) := by
  refine stops_askStatus (fun answer => ?_) _ _ _
  rcases answer with failure | answer
  · cases failure with
    | cancelled => exact .fail rfl rfl
    | _ => exact .use (by simp) rfl
  · exact .use (by simp) rfl

/-- To ask a container for its externals stops by a cancellation alone. -/
theorem stops_isExternalOf (container : Resource) (path : Path) :
    Stops env.backend Cancelled (isExternalOf env container path) := by
  unfold isExternalOf
  split
  · exact .pure _
  refine stops_askStatus (fun answer => ?_) _ _ _
  rcases answer with failure | answer
  · cases failure with
    | cancelled => exact .fail rfl rfl
    | _ => exact .use (by simp) rfl
  · exact .use (by simp) rfl

/-- To settle an entry stops by a cancellation alone. -/
theorem stops_settle (batch : Batch) (project : Resource) (isFirst : Bool) (entry : Entry) :
    Stops env.backend Cancelled (settle env batch project isFirst entry) := by
  rw [settle_eq]
  exact .ite (.bind (stops_fetchConflicts _) fun conflicts => .pure _) (.pure _)

/-- To register a record does not stop. -/
theorem stops_register (record : Record) : Stops b P (register env record) :=
  .of_run fun w => ⟨_, _, run_register env record w, .registered record⟩

/-- To commit a finding does not stop. -/
theorem stops_commit (batch : Batch) (f : Finding) (above : Option Record) (isExternal : Bool) :
    Stops b P (commit env batch f above isExternal) := by
  refine .of_run fun w => ?_
  rcases run_commit env batch f above isExternal w with h | h | ⟨text, h⟩
  · exact ⟨_, _, h, .refl w⟩
  · exact ⟨_, _, h, .registered _⟩
  · refine ⟨_, _, h, .trans ?_ (.registered _)⟩
    unfold noted
    split
    · exact .of_eq rfl rfl
    · exact .refl w

/-- To ask whether the first entry is an external stops by a cancellation alone. -/
theorem stops_isExternalRoot (batch : Batch) (f : Finding) :
    Stops env.backend Cancelled (isExternalRoot env batch f) := by
  unfold isExternalRoot
  refine .ite ?_ (.pure _)
  split
  · exact .pure _
  refine .ite (.pure _) (.bind (.of_reads (reads_cached _)) fun record => ?_)
  exact .ite (.pure _) (stops_isExternalOf _ _)

/-- To record a finding stops by a cancellation alone. -/
theorem stops_recordFinding (batch : Batch) (isFirst : Bool) (f : Finding) :
    Stops env.backend Cancelled (recordFinding env batch isFirst f) := by
  refine .bind (.of_reads (reads_cachedAbove _)) fun above => .ite ?_ (.ite ?_ ?_)
  · exact .bind (stops_register _) fun _ => .pure _
  · refine .bind (stops_queryExternal _) fun fresh => ?_
    split
    · exact stops_commit _ _ _ _
    · exact .bind (stops_register _) fun _ => .pure _
  · have hcommit : ∀ isExternal, Stops env.backend Cancelled
        (commit env batch f above isExternal) := fun _ => stops_commit _ _ _ _
    exact .ite (.bind (stops_isExternalRoot batch f) hcommit) (.bind (.pure _) hcommit)

/-- To work through an entry stops by a cancellation alone. -/
theorem stops_fillEntry (batch : Batch) (project : Resource) (isFirst : Bool) (entry : Entry)
    (p : Progress) : Stops env.backend Cancelled (fillEntry env batch project isFirst entry p) := by
  refine .bind (stops_settle batch project isFirst entry) fun finding => ?_
  cases finding with
  | none => exact .pure _
  | some f =>
    refine .bind (.of_reads (reads_cached _)) fun known => ?_
    simp only
    split
    · exact .pure _
    · exact .bind (stops_recordFinding batch isFirst f) fun _ => .pure _

/-- To work through entries stops by a cancellation alone. -/
theorem stops_fillEntries (batch : Batch) (project : Resource) (isFirst : Bool)
    (entries : List Entry) (p : Progress) :
    Stops env.backend Cancelled (fillEntries env batch project isFirst entries p) := by
  induction entries generalizing isFirst p with
  | nil => exact .pure p
  | cons e es ih => exact .bind (stops_fillEntry batch project isFirst e p) fun p => ih false p

/-- To work through a batch stops by a cancellation alone. -/
theorem stops_fill (batch : Batch) : Stops env.backend Cancelled (fill env batch) := by
  unfold fill
  split
  · exact .pure _
  · exact .bind (stops_fillEntries batch _ true batch.entries {}) fun p => .pure _

/-! ### Unversioned nodes -/

/-- To register a node of a scan does not stop. -/
theorem stops_registerUnversioned (origin : Resource) (isLinked : Bool) (node : Resource)
    (scan : Scan) : Stops b P (registerUnversioned env origin isLinked node scan) :=
  .of_run fun w => ⟨_, registered env (scanned env origin isLinked node scan w) w, rfl,
    .registered _⟩

/-- A visit does not stop. -/
theorem stops_visit (origin : Resource) (isLinked : Bool) (levels : Nat) (node : Resource)
    (scan : Scan) : Stops b P (visit env origin isLinked levels node scan) := by
  induction levels generalizing node scan with
  | zero =>
    rw [visit]
    exact .ite (.pure _) (.bind (stops_registerUnversioned origin isLinked node scan) fun scan =>
      .pure _)
  | succ levels ih =>
    rw [visit]
    refine .ite (.pure _) (.bind (stops_registerUnversioned origin isLinked node scan) ?_)
    exact fun scan => .ite (.foldlM (fun scan m => ih m scan) _ _) (.pure _)

/-- A scan does not stop. -/
theorem stops_scanUnversioned (r : Resource) (isLinked : Bool) (depth : Depth) :
    Stops b P (scanUnversioned env r isLinked depth) :=
  .bind (stops_visit r isLinked _ r {}) fun _ => .pure _

/-! ### Lookups -/

/-- To ask for entries may stop by any failure. -/
theorem stops_askEntries (path : Path) (depth : Backend.Depth) :
    Stops env.backend Any (askEntries env path depth) := by
  refine stops_askStatus (fun answer => ?_) _ _ _
  rcases answer with failure | entries
  · cases failure with
    | cleanupRequired _ => exact .use (by simp) rfl
    | notWorkingCopy _ => exact .use (by simp) rfl
    | pathNotFound _ => exact .use (by simp) rfl
    | cancelled => exact .fail trivial rfl
    | failed _ => exact .fail trivial rfl
  · exact .use (by simp) rfl

/-- A load from the backend may stop by any failure. -/
theorem stops_loadVersioned (r parent : Resource) (binding : Binding) (depth : Depth) :
    Stops env.backend Any (loadVersioned env r parent binding depth) := by
  unfold loadVersioned
  simp only
  split
  · refine .bind (stops_askEntries _ _) fun entries => ?_
    refine .bind ((stops_fill _).mono fun _ _ => trivial) fun found => ?_
    exact .optional (.change _) (.optional (.modify (fun _ => rfl) fun _ => rfl) (.pure _))
  · exact .pure _

variable {lookupParent load : Action Record}

/-- To load what is known may stop by any failure, if the lookup of the parent does by a
cancellation alone. -/
theorem stops_loadKnown (hparent : Stops env.backend Cancelled lookupParent)
    (r parent : Resource) (binding : Binding) (depth : Depth) :
    Stops env.backend Any (loadKnown env lookupParent r parent binding depth) := by
  have hload : ∀ isVersioned : Bool, Stops env.backend Any
      (if isVersioned then loadVersioned env r parent binding depth else pure none) := fun _ =>
    .ite (stops_loadVersioned r parent binding depth) (.pure _)
  unfold loadKnown
  simp only
  refine .ite (.ite (.bind (.pure _) hload) (.bind (hparent.mono fun _ _ => trivial) ?_)) (.pure _)
  exact fun above => .bind (.pure _) hload

/-- What is known, or else scanned, does not stop. -/
theorem stops_orScan (r : Resource) (depth : Depth) (known : Option Record) :
    Stops b P (orScan env r depth known) := by
  cases known with
  | none => exact stops_scanUnversioned r _ depth
  | some record => exact .ite (stops_scanUnversioned r _ depth) (.pure _)

/-- A load may stop by any failure, if the lookup of the parent does by a cancellation alone. -/
theorem stops_loadSubtree (hparent : Stops env.backend Cancelled lookupParent)
    (r parent : Resource) (depth : Depth) :
    Stops env.backend Any (loadSubtree env lookupParent r parent depth) := by
  unfold loadSubtree
  split
  · exact .pure _
  next binding _ =>
    refine .ite (.pure _) (.optional (.change _) ?_)
    exact .bind (stops_loadKnown hparent r parent binding _) (stops_orScan r _)

/-- Whatever fails at the level of a resource, only a cancellation gets past it. -/
theorem stops_orInvalid (hload : Stops b Any load) (r : Resource) :
    Stops b Cancelled (orInvalid r load) := by
  intro w
  have hw := hload w
  rcases hrun : load.run w with ⟨e | record, w'⟩ <;> rw [hrun] at hw
  · cases hw with
    | @failing v call failure h hfails _ =>
      by_cases hfailure : failure = .cancelled
      · subst hfailure
        rw [orInvalid, run_tryCatch, hrun]
        exact .failing h hfails rfl
      · have hcalm : ¬b.Fails v.calls call .cancelled := fun hcancelled =>
          hfailure (hfails.unique hcancelled)
        rw [run_orInvalid_of_mishap hrun ⟨failure, rfl, hfailure⟩]
        exact .well (h.trans (.ask hcalm))
  · cases hw with
    | well h =>
      rw [run_orInvalid_of_ok hrun]
      exact .well h

/-- What is cached or else loaded stops as the load does. -/
theorem stops_cachedOr (hload : Stops b Cancelled load) (r : Resource) :
    Stops b Cancelled (cachedOr env r load) := by
  refine .ite (.bind (.of_reads (reads_cached r)) fun known => ?_) hload
  split
  · exact .pure _
  · exact hload

/-- A reload stops by a cancellation alone, whatever its ancestors are. -/
theorem stops_reloadBelow (above : List Resource) (r : Resource) (depth : Depth) :
    Stops env.backend Cancelled (reloadBelow env above r depth) := by
  induction above generalizing r depth with
  | nil => exact .pure _
  | cons parent above ih =>
    refine .ite (stops_orInvalid ?_ r) (.pure _)
    exact stops_loadSubtree (stops_cachedOr (ih parent .one) parent) r parent depth

/-- A reload stops by a cancellation alone. -/
theorem stops_reload (r : Resource) (depth : Depth) :
    Stops env.backend Cancelled (reload env r depth) := stops_reloadBelow _ r depth

/-- **A lookup runs undisturbed, or ends at once with a cancellation.** -/
theorem stops_lookup (r : Resource) (depth : Depth) :
    Stops env.backend Cancelled (lookup env r depth) := stops_cachedOr (stops_reload r depth) r

end Lookup
end StatusCache
