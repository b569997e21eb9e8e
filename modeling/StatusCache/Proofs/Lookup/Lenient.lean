/-
# Failures that a lookup makes do with

Most failures of the backend are not seen in a lookup: it goes on as if it had got an answer. Where
the metadata of a node or the entry of an external cannot be had, there is none. A locked working
copy shows as one modified directory, and what is no working copy, or not there, has no entries.
A backend that gives these answers in place of the failures (`Backend.lenient`) leads to the same
lookups (`lookup_lenient`). It fails only if it cancels, or if a request for entries fails in
another way (`Backend.fails_lenient`).
-/

import StatusCache.Proofs.Lookup.Failure
import StatusCache.Proofs.Lookup.Uncached

namespace StatusCache

namespace Backend

/-- The same backend with answers in place of the failures that lookups make do with. Ignored nodes
are included where a lookup asks for the entries below a path, and only there. -/
def lenient (b : Backend) : Backend where
  status calls path depth options :=
    match b.status calls path depth options, options.ignored with
    | .ok entries, _ => .ok entries
    | .error .cancelled, _ => .error .cancelled
    | .error (.cleanupRequired _), true => .ok [Entry.needsCleanup path]
    | .error (.failed reason), true => .error (.failed reason)
    | .error _, _ => .ok []
  info calls reference depth :=
    match b.info calls reference depth with
    | .ok infos => .ok infos
    | .error .cancelled => .error .cancelled
    | .error _ => .ok []

/-- What lookups do not make do with: a cancellation, and a request for entries that fails in a way
of its own. -/
theorem fails_lenient {b : Backend} {calls : List Call} {call : Call} {failure : Failure}
    (h : b.lenient.Fails calls call failure) : failure = .cancelled ∨
      ∃ reason path depth options, failure = .failed reason ∧ options.ignored ∧
        call = .status path depth options ∧ b.Fails calls call failure := by
  cases call with
  | status path depth options =>
    unfold Fails lenient at h
    simp only at h
    split at h
    · cases h
    · exact .inl (Except.error.inj h).symm
    · cases h
    next reason hfails hignored =>
      obtain rfl := Except.error.inj h
      exact .inr ⟨reason, path, depth, options, rfl, hignored, rfl, hfails⟩
    · cases h
  | info reference depth =>
    unfold Fails lenient at h
    simp only at h
    split at h
    · cases h
    · exact .inl (Except.error.inj h).symm
    · cases h

end Backend

namespace Lookup

variable {env : Env} {α γ : Type} {r p : Resource} {w w' : World} {failure : Backend.Failure}

/-- The same surroundings with a lenient backend. -/
def Env.lenient (env : Env) : Env := { env with backend := env.backend.lenient }

/-- Two ways to ask that make no difference to what follows. -/
theorem ask_congr {ask ask' : Action γ} {f : γ → Action α}
    (h : ∀ w, ∃ a a' w', ask.run w = (.ok a, w') ∧ ask'.run w = (.ok a', w') ∧ f a = f a') :
    ask >>= f = ask' >>= f := by
  funext w
  obtain ⟨a, a', w', hask, hask', heq⟩ := h w
  have hrun : (ask >>= f).run w = (ask' >>= f).run w := by
    rw [run_bind_ok hask, run_bind_ok hask', heq]
  exact hrun

/-- Entries are asked for alike, as their failures are made up for. -/
theorem askEntries_lenient : askEntries env.lenient = askEntries env := by
  funext path depth
  refine ask_congr fun w => ⟨_, _, _, rfl, rfl, ?_⟩
  simp only [Env.lenient, Backend.lenient]
  generalize env.backend.status w.calls path depth { unchanged := true, ignored := true } = answer
  rcases answer with failure | entries
  · cases failure with
    | cleanupRequired _ => simp only [Entry.arrange, List.mergeSort_singleton]
    | notWorkingCopy _ => simp only [Entry.arrange, List.mergeSort_nil]
    | pathNotFound _ => simp only [Entry.arrange, List.mergeSort_nil]
    | cancelled => rfl
    | failed _ => rfl
  · rfl

/-- Conflicts are fetched alike, as failures to tell of them count for nothing. -/
theorem fetchConflicts_lenient : fetchConflicts env.lenient = fetchConflicts env := by
  funext path
  refine ask_congr fun w => ⟨_, _, _, rfl, rfl, ?_⟩
  simp only [Env.lenient, Backend.lenient]
  generalize env.backend.info w.calls { path := path.text } .empty = answer
  rcases answer with failure | infos
  · cases failure <;> rfl
  · rfl

/-- Externals are asked about alike, as those that fail count as unreachable. -/
theorem queryExternal_lenient : queryExternal env.lenient = queryExternal env := by
  funext path
  refine ask_congr fun w => ⟨_, _, _, rfl, rfl, ?_⟩
  simp only [Env.lenient, Backend.lenient]
  generalize env.backend.status w.calls path .immediates { unchanged := true } = answer
  rcases answer with failure | entries
  · cases failure <;>
      simp only [Entry.arrange, List.mergeSort_nil, List.head?_nil, Option.filter_none]
  · rfl

/-- Containers are asked for externals alike, as those that fail have none. -/
theorem isExternalOf_lenient : isExternalOf env.lenient = isExternalOf env := by
  funext container path
  unfold isExternalOf
  have hhost : env.lenient.host = env.host := rfl
  rw [hhost]
  split
  · rfl
  next place _ =>
    refine ask_congr fun w => ⟨_, _, _, rfl, rfl, ?_⟩
    simp only [Env.lenient, Backend.lenient]
    generalize env.backend.status w.calls place .immediates { unchanged := true } = answer
    rcases answer with failure | entries
    · cases failure <;> rfl
    · rfl

/-- Entries are settled alike. -/
theorem settle_lenient : settle env.lenient = settle env := by
  funext batch project isFirst entry
  unfold settle
  rw [fetchConflicts_lenient]
  rfl

/-- First entries are taken for externals alike. -/
theorem isExternalRoot_lenient : isExternalRoot env.lenient = isExternalRoot env := by
  funext batch f
  unfold isExternalRoot
  rw [isExternalOf_lenient]
  rfl

/-- Findings are recorded alike. -/
theorem recordFinding_lenient : recordFinding env.lenient = recordFinding env := by
  funext batch isFirst f
  unfold recordFinding
  rw [queryExternal_lenient, isExternalRoot_lenient]
  rfl

/-- Entries are worked through alike. -/
theorem fillEntries_lenient (batch : Batch) (project : Resource) (isFirst : Bool)
    (entries : List Entry) (p : Progress) :
    fillEntries env.lenient batch project isFirst entries p =
      fillEntries env batch project isFirst entries p := by
  induction entries generalizing isFirst p with
  | nil => rfl
  | cons e es ih =>
    rw [fillEntries, fillEntries]
    simp only [ih]
    unfold fillEntry
    rw [settle_lenient, recordFinding_lenient]

/-- Batches are worked through alike. -/
theorem fill_lenient : fill env.lenient = fill env := by
  funext batch
  unfold fill
  simp only [fillEntries_lenient]

/-- Visits ask for nothing, so they are alike. -/
theorem visit_lenient (origin : Resource) (isLinked : Bool) (levels : Nat) :
    visit env.lenient origin isLinked levels = visit env origin isLinked levels := by
  induction levels with
  | zero => rfl
  | succ levels ih =>
    funext node scan
    rw [visit, visit]
    simp only [ih]
    rfl

/-- Scans ask for nothing, so they are alike. -/
theorem scanUnversioned_lenient : scanUnversioned env.lenient = scanUnversioned env := by
  funext r isLinked depth
  rw [scanUnversioned, scanUnversioned, visit_lenient]
  rfl

/-- What is known or else scanned is alike. -/
theorem orScan_lenient : orScan env.lenient = orScan env := by
  funext r depth known
  unfold orScan
  rw [scanUnversioned_lenient]
  rfl

/-- Loads from the backend are alike. -/
theorem loadVersioned_lenient : loadVersioned env.lenient = loadVersioned env := by
  funext r parent binding depth
  unfold loadVersioned
  rw [askEntries_lenient, fill_lenient]
  rfl

/-- Loads are alike. -/
theorem loadSubtree_lenient : loadSubtree env.lenient = loadSubtree env := by
  funext lookupParent r parent depth
  unfold loadSubtree loadKnown
  rw [loadVersioned_lenient, orScan_lenient]
  rfl

/-- Reloads are alike, whatever the ancestors are. -/
theorem reloadBelow_lenient (above : List Resource) (r : Resource) (depth : Depth) :
    reloadBelow env.lenient above r depth = reloadBelow env above r depth := by
  induction above generalizing r depth with
  | nil => rfl
  | cons parent above ih =>
    rw [reloadBelow, reloadBelow, ih, loadSubtree_lenient]
    rfl

/-- A lenient backend makes no difference for a reload. -/
theorem reload_lenient (r : Resource) (depth : Depth) :
    reload env.lenient r depth = reload env r depth := reloadBelow_lenient _ r depth

/-- **A lenient backend leads to the same lookups.** -/
theorem lookup_lenient (r : Resource) (depth : Depth) :
    lookup env.lenient r depth = lookup env r depth := by
  rw [lookup, reload_lenient]
  rfl

/-- **What leaves a resource without a status**: a request for entries, made last, that fails in a
way of its own. -/
theorem reload_of_failure (hp : r.parent? = some p) (hr : env.isAccessible r) {depth : Depth}
    (hrun : (loadSubtree env (lookup env p .one) r p depth).run w =
      (.error (.backend failure), w')) (hfailure : failure ≠ .cancelled) :
    (reload env r depth).run w = (.ok (Record.invalid r), w') ∧
      ∃ reason path below options older, failure = .failed reason ∧ options.ignored ∧
        w'.calls = .status path below options :: older ∧
        env.backend.Fails older (.status path below options) failure := by
  constructor
  · rw [reload_of_parent? hp, if_pos hr]
    exact run_orInvalid_of_mishap hrun ⟨failure, rfl, hfailure⟩ r
  · have hparent : Stops env.lenient.backend Cancelled (lookup env.lenient p .one) :=
      stops_lookup p .one
    have hends := stops_loadSubtree hparent r p depth w
    rw [loadSubtree_lenient, lookup_lenient, hrun] at hends
    cases hends with
    | failing h hfails _ =>
      obtain hcancelled | ⟨reason, path, below, options, hreason, hignored, rfl, hfails'⟩ :=
        Backend.fails_lenient hfails
      · exact absurd hcancelled hfailure
      · exact ⟨reason, path, below, options, _, hreason, hignored, rfl, hfails'⟩

end Lookup
end StatusCache
