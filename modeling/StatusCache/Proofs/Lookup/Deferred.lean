/-
# Folders that are left for later

Working through an answer defers the folders that got a record and nothing below them yet. What is
deferred in the end is told by the findings that had no record when their turn came (`Batch.news`):
it is each folder among them after which none comes that lies directly in it (`Open`,
`mem_deferred`).

The caller is handed the deferred folders of a container as one job, but only if there are several
of them (`Batch.left`). The jobs that looking up the containers above leaves are about those
(`leaves_reload`), and a scan leaves none. So a folder that still needs a deeper lookup is handed
out if and only if it is not the only one (`handedOut_iff`): from a container with a single folder
in it nothing is handed out.
-/

import Mathlib.Data.List.Induction
import StatusCache.Proofs.Lookup.Buckets
import StatusCache.Proofs.Lookup.Footprint
import StatusCache.Proofs.Lookup.Order
import StatusCache.Proofs.Lookup.Uncached
import StatusCache.Proofs.Table

open Relation (ReflTransGen)

namespace StatusCache

namespace Lookup

variable {env : Env} {batch : Batch} {r parent : Resource} {e : Entry} {f g : Finding}
  {findings : List Finding} {deferred : List Entry} {record : Option Record} {answer : Record}
  {depth : Depth} {w w' u v : World} {S : Resource → Prop}

/-! ### Which folders stay open -/

/-- A finding without a record is deferred if it is a folder, and what contains it is deferred no
more. -/
def deferOne (t : Table Resource Entry) (f : Finding) : Table Resource Entry :=
  let t := if f.kind = .dir then t.insert f.resource f.entry else t
  match f.resource.parent? with
  | some parent => t.erase parent
  | none => t

/-- Deferring a finding changes what is deferred by that finding. -/
theorem Progress.deferred_defer (p : Progress) (f : Finding) :
    (p.defer f).deferred = deferOne p.deferred f := by
  unfold Progress.defer deferOne
  simp only
  cases f.resource.parent? <;> rfl

/-- A finding is deferred if it is a folder, and what contains it is no longer. -/
theorem get?_deferOne (t : Table Resource Entry) (f : Finding) (k : Resource) :
    (deferOne t f).get? k =
      if f.resource.parent? = some k then none
      else if f.kind = .dir ∧ f.resource = k then some f.entry
      else t.get? k := by
  have hinsert : (if f.kind = .dir then t.insert f.resource f.entry else t).get? k =
      if f.kind = .dir ∧ f.resource = k then some f.entry else t.get? k := by
    by_cases hkind : f.kind = .dir <;> simp [hkind, Table.get?_insert]
  unfold deferOne
  cases hp : f.resource.parent? with
  | none => simpa using hinsert
  | some parent =>
    simp only [Table.get?_erase, hinsert, Option.some.injEq, eq_comm (a := k)]

/-- No folder is deferred twice. -/
theorem distinct_deferOne {t : Table Resource Entry} (h : t.Distinct) (f : Finding) :
    (deferOne t f).Distinct := by
  have hinsert : (if f.kind = .dir then t.insert f.resource f.entry else t).Distinct := by
    split
    · exact h.insert _ _
    · exact h
  unfold deferOne
  cases f.resource.parent? with
  | none => exact hinsert
  | some parent => exact hinsert.erase parent

/-- Among findings that come one after the other, this one is a folder, and none that comes later
lies directly in it or is that folder once more. -/
def Open (findings : List Finding) (f : Finding) : Prop :=
  ∃ before after, findings = before ++ f :: after ∧ f.kind = .dir ∧
    ∀ g ∈ after, g.resource.parent? ≠ some f.resource ∧ (g.kind = .dir → g.resource ≠ f.resource)

/-- Among no findings none is open. -/
theorem not_open_nil (f : Finding) : ¬Open [] f := by
  rintro ⟨before, after, hsplit, -⟩
  simp at hsplit

/-- A new finding is open if it is a folder, and leaves those open that do not contain it. -/
theorem open_append_singleton :
    Open (findings ++ [g]) f ↔ f = g ∧ g.kind = .dir ∨
      Open findings f ∧ g.resource.parent? ≠ some f.resource ∧
        (g.kind = .dir → g.resource ≠ f.resource) := by
  constructor
  · rintro ⟨before, after, hsplit, hkind, hlater⟩
    rcases List.eq_nil_or_concat after with rfl | ⟨after, last, rfl⟩
    · obtain ⟨-, hlast⟩ := List.append_inj' hsplit rfl
      obtain rfl := (List.cons.inj hlast).1
      exact .inl ⟨rfl, hkind⟩
    · rw [List.concat_eq_append, ← List.cons_append, ← List.append_assoc] at hsplit
      obtain ⟨rfl, hlast⟩ := List.append_inj' hsplit rfl
      obtain rfl := (List.cons.inj hlast).1
      rw [List.concat_eq_append] at hlater
      exact .inr ⟨⟨before, after, rfl, hkind, fun g hg => hlater g (List.mem_append_left _ hg)⟩,
        hlater g (List.mem_append_right _ List.mem_cons_self)⟩
  · rintro (⟨rfl, hkind⟩ | ⟨⟨before, after, rfl, hkind, hlater⟩, hlast⟩)
    · exact ⟨findings, [], rfl, hkind, by simp⟩
    · refine ⟨before, after ++ [g], by simp, hkind, fun h hh => ?_⟩
      rcases List.mem_append.1 hh with hh | hh
      · exact hlater h hh
      · exact List.mem_singleton.1 hh ▸ hlast

/-- **What is deferred in the end** are the entries of the folders that stay open. -/
theorem get?_foldl_deferOne {k : Resource} :
    (findings.foldl deferOne {}).get? k = some e ↔
      ∃ f, Open findings f ∧ f.resource = k ∧ f.entry = e := by
  induction findings using List.reverseRecOn with
  | nil => simp [not_open_nil]
  | append_singleton findings g ih =>
    rw [List.foldl_append, List.foldl_cons, List.foldl_nil, get?_deferOne]
    simp only [open_append_singleton]
    split
    next hparent =>
      -- What contains the last finding is closed by it, and a folder does not contain itself.
      refine iff_of_false (by simp) ?_
      rintro ⟨f, ⟨rfl, -⟩ | ⟨-, hopen, -⟩, rfl, -⟩
      · exact parent?_ne_of_mem_lineage f.resource.self_mem_lineage hparent
      · exact hopen hparent
    next hparent =>
      split
      next hself =>
        constructor
        · rintro ⟨⟩
          exact ⟨g, .inl ⟨rfl, hself.1⟩, hself.2, rfl⟩
        · rintro ⟨f, ⟨rfl, -⟩ | ⟨-, -, hopen⟩, rfl, rfl⟩
          · rfl
          · exact absurd hself.2 (hopen hself.1)
      next hother =>
        rw [ih]
        constructor
        · rintro ⟨f, hopen, rfl, rfl⟩
          exact ⟨f, .inr ⟨hopen, hparent, fun hkind heq => hother ⟨hkind, heq⟩⟩, rfl, rfl⟩
        · rintro ⟨f, ⟨rfl, hkind⟩ | ⟨hopen, -⟩, rfl, rfl⟩
          · exact absurd ⟨hkind, rfl⟩ hother
          · exact ⟨f, hopen, rfl, rfl⟩

/-- After all findings no folder is deferred twice. -/
theorem distinct_foldl_deferOne (findings : List Finding) : (findings.foldl deferOne {}).Distinct :=
  List.foldlRecOn findings deferOne Table.distinct_empty fun _ h f _ => distinct_deferOne h f

/-! ### What a batch comes across -/

/-- What an entry comes to: a finding, and the record that it has or that it gets now. -/
structure Encounter where
  finding : Finding
  isNew : Bool
  record : Option Record

section Encounters

variable (env : Env) (batch : Batch) (project : Resource)

/-- Settles what an entry is about, and records that if it has no record. -/
def encounter (isFirst : Bool) (e : Entry) : Action (Option Encounter) := do
  match ← settle env batch project isFirst e with
  | none => return none
  | some f =>
    match ← cached f.resource with
    | some record => return some { finding := f, isNew := false, record := some record }
    | none =>
      let record ← recordFinding env batch isFirst f
      return some { finding := f, isNew := true, record := record }

/-- What the entries come to, one after the other. -/
def encounters : Bool → List Entry → Action (List Encounter)
  | _, [] => return []
  | isFirst, e :: es => do
    let found ← encounter env batch project isFirst e
    return found.toList ++ (← encounters false es)

/-- How far a batch has come after an encounter. -/
def Progress.after (p : Progress) (c : Encounter) : Progress :=
  let p := if c.isNew then p.defer c.finding else p
  if c.finding.resource = batch.resource then { p with answer := c.record <|> p.answer } else p

/-- What is done about an entry does not depend on how far the batch has come. -/
theorem fillEntry_eq (isFirst : Bool) (e : Entry) (p : Progress) :
    fillEntry env batch project isFirst e p = do
      return (← encounter env batch project isFirst e).toList.foldl (Progress.after batch) p := by
  unfold fillEntry encounter
  rw [bind_assoc]
  refine congrArg _ (funext fun found => ?_)
  cases found with
  | none => rw [pure_bind]; rfl
  | some f =>
    simp only [bind_assoc]
    refine congrArg _ (funext fun known => ?_)
    cases known with
    | some record => simp only [pure_bind]; rfl
    | none => simp only [bind_assoc, pure_bind]; rfl

/-- Working through entries is meeting their findings, and then counting them. -/
theorem fillEntries_eq (isFirst : Bool) (es : List Entry) (p : Progress) :
    fillEntries env batch project isFirst es p = do
      return (← encounters env batch project isFirst es).foldl (Progress.after batch) p := by
  induction es generalizing isFirst p with
  | nil => rfl
  | cons e es ih =>
    rw [fillEntries, encounters, fillEntry_eq]
    simp only [ih, bind_assoc, pure_bind, List.foldl_append]

end Encounters

/-- The findings of encounters that had no record. -/
def newFindings (found : List Encounter) : List Finding :=
  (found.filter (·.isNew)).map (·.finding)

/-- What is deferred in the end depends on the new findings alone. -/
theorem deferred_foldl_after (found : List Encounter) (p : Progress) :
    (found.foldl (Progress.after batch) p).deferred =
      (newFindings found).foldl deferOne p.deferred := by
  induction found generalizing p with
  | nil => rfl
  | cons c found ih =>
    have hafter : (p.after batch c).deferred =
        if c.isNew then deferOne p.deferred c.finding else p.deferred := by
      unfold Progress.after
      cases c.isNew <;> by_cases hanswers : c.finding.resource = batch.resource <;>
        simp [hanswers, Progress.deferred_defer]
    rw [List.foldl_cons, ih, hafter, newFindings, newFindings, List.filter_cons]
    split <;> rfl

/-- The findings of a batch that have no record when their turn comes. -/
def Batch.news (batch : Batch) (env : Env) (w : World) : List Finding :=
  match batch.resource.project? with
  | none => []
  | some project =>
    match ((encounters env batch project true batch.entries).run w).1 with
    | .ok found => newFindings found
    | .error _ => []

/-- Working through a batch defers what its new findings leave open. -/
theorem perm_deferred (hfill : (fill env batch).run w = (.ok (record, deferred), w')) :
    deferred.Perm (((batch.news env w).foldl deferOne {}).entries.map (·.2)) := by
  unfold fill at hfill
  unfold Batch.news
  cases hproject : batch.resource.project? with
  | none =>
    rw [hproject] at hfill
    cases hfill
    exact .nil
  | some project =>
    rw [hproject] at hfill
    simp only [fillEntries_eq, bind_assoc, pure_bind] at hfill
    rw [run_bind] at hfill
    rcases hfound : (encounters env batch project true batch.entries).run w with
      ⟨err | found, u⟩ <;> rw [hfound] at hfill
    · cases hfill
    · cases hfill
      simp only [deferred_foldl_after, hfound]
      exact (List.mergeSort_perm _ _).map _

/-- **Which folders need a deeper lookup**: those that stay open. -/
theorem mem_deferred (hfill : (fill env batch).run w = (.ok (record, deferred), w')) :
    e ∈ deferred ↔ ∃ f, Open (batch.news env w) f ∧ f.entry = e := by
  have hdistinct : ((batch.news env w).foldl deferOne {}).Distinct := distinct_foldl_deferOne _
  rw [(perm_deferred hfill).mem_iff, List.mem_map]
  constructor
  · rintro ⟨⟨k, e⟩, hentry, rfl⟩
    obtain ⟨f, hopen, -, he⟩ := get?_foldl_deferOne.1 (hdistinct.mem_entries_iff.1 hentry)
    exact ⟨f, hopen, he⟩
  · rintro ⟨f, hopen, rfl⟩
    exact ⟨(f.resource, f.entry),
      hdistinct.mem_entries_iff.2 (get?_foldl_deferOne.2 ⟨f, hopen, rfl, rfl⟩), rfl⟩

/-- A folder is not deferred alone if and only if another one stays open. -/
theorem one_lt_length_deferred (hfill : (fill env batch).run w = (.ok (record, deferred), w'))
    (hf : Open (batch.news env w) f) :
    1 < deferred.length ↔ ∃ g, Open (batch.news env w) g ∧ g.resource ≠ f.resource := by
  have hdistinct : ((batch.news env w).foldl deferOne {}).Distinct := distinct_foldl_deferOne _
  have hkey : (((batch.news env w).foldl deferOne {}).get? f.resource).isSome :=
    Option.isSome_iff_exists.2 ⟨_, get?_foldl_deferOne.2 ⟨f, hf, rfl, rfl⟩⟩
  rw [(perm_deferred hfill).length_eq, List.length_map]
  refine (hdistinct.one_lt_size_iff hkey).trans ?_
  constructor
  · rintro ⟨k, hne, hk⟩
    obtain ⟨e, he⟩ := Option.isSome_iff_exists.1 hk
    obtain ⟨g, hg, rfl, -⟩ := get?_foldl_deferOne.1 he
    exact ⟨g, hg, hne⟩
  · rintro ⟨g, hg, hne⟩
    exact ⟨g.resource, hne,
      Option.isSome_iff_exists.2 ⟨_, get?_foldl_deferOne.2 ⟨g, hg, rfl, rfl⟩⟩⟩

/-! ### Jobs -/

/-- Jobs are left, all of them for such containers. -/
def Leaves (S : Resource → Prop) (w w' : World) : Prop :=
  ∃ jobs, w'.jobs = w.jobs ++ jobs ∧ ∀ job ∈ jobs, S job.target

/-- If no job is left, all are for such containers. -/
theorem Leaves.of_jobs_eq (h : w'.jobs = w.jobs) : Leaves S w w' := ⟨[], by simp [h], by simp⟩

/-- Jobs for some containers are jobs for more. -/
theorem Leaves.mono {T : Resource → Prop} (h : Leaves S w w') (hST : ∀ r, S r → T r) :
    Leaves T w w' := by
  obtain ⟨jobs, hjobs, htargets⟩ := h
  exact ⟨jobs, hjobs, fun job hjob => hST _ (htargets job hjob)⟩

/-- The jobs of a whole run are those of its steps. -/
theorem leaves_of_steps (h : ReflTransGen (Leaves S) w w') : Leaves S w w' := by
  induction h with
  | refl => exact .of_jobs_eq rfl
  | tail _ hlast ih =>
    obtain ⟨jobs, hjobs, htargets⟩ := ih
    obtain ⟨more, hmore, hmoretargets⟩ := hlast
    refine ⟨jobs ++ more, by rw [hmore, hjobs, List.append_assoc], fun job hjob => ?_⟩
    exact (List.mem_append.1 hjob).elim (htargets job) (hmoretargets job)

/-- Asking and writing records leaves no job. -/
theorem Write.jobs (h : Write env w w') : w'.jobs = w.jobs := by
  cases h with
  | ask => rfl
  | ignore => rfl
  | scan => rfl
  | describe batch f isExternal =>
    change (noted _ _ w).jobs = w.jobs
    unfold noted
    split <;> rfl

/-- What asks and writes records leaves no job. -/
theorem jobs_of_writes {α : Type} {x : Action α} (hx : Moves (Write env) x) (w : World) :
    (x.run w).2.jobs = w.jobs := by
  have hsteps := hx w
  generalize (x.run w).2 = w' at hsteps
  induction hsteps with
  | refl => rfl
  | tail _ hlast ih => rw [hlast.jobs, ih]

/-- What asks and writes records leaves no job for other containers. -/
theorem leaves_of_writes {α : Type} {x : Action α} (hx : Moves (Write env) x) :
    Moves (Leaves S) x :=
  hx.mono fun _ _ h => .of_jobs_eq h.jobs

/-- Asking leaves no job. -/
theorem leaves_of_asks {α : Type} {x : Action α} (hx : Asks x) : Moves (Leaves S) x := by
  intro w
  obtain ⟨calls, hcalls⟩ := hx w
  rw [hcalls]
  exact .single (.of_jobs_eq rfl)

/-- A load from the backend leaves jobs for its target alone. -/
theorem leaves_loadVersioned {binding : Binding} (hS : S (if r.isContainer then r else parent)) :
    Moves (Leaves S) (loadVersioned env r parent binding depth) := by
  unfold loadVersioned
  simp only
  split
  · refine .bind (leaves_of_asks (asks_askEntries _ _)) fun entries => ?_
    refine .bind (leaves_of_writes (moves_fill _)) fun found => ?_
    refine .optional (fun _ w => .single (.of_jobs_eq rfl)) (.optional (fun _ w => ?_) (.pure _))
    exact .single ⟨[_], rfl, fun job hjob => List.mem_singleton.1 hjob ▸ hS⟩
  · exact .pure _

/-- **The jobs of a load are about its resource and the containers above.** -/
theorem leaves_reload (r : Resource) (depth : Depth) :
    Moves (Leaves (· ∈ r.lineage)) (reload env r depth) := by
  induction r using Resource.parent_induction generalizing depth with
  | step r ih =>
    cases hp : r.parent? with
    | none =>
      rw [reload, Resource.ancestors_of_parent?_none hp]
      exact .pure _
    | some p =>
      have hup : ∀ a ∈ p.lineage, a ∈ r.lineage := fun a ha =>
        (Resource.mem_lineage_of_parent? hp).2 (.inr ha)
      have hparent : Moves (Leaves (· ∈ r.lineage)) (reload env p .one) :=
        (ih p hp .one).mono fun _ _ h => h.mono hup
      have htarget : (if r.isContainer then r else p) ∈ r.lineage := by
        split
        · exact r.self_mem_lineage
        · exact hup p p.self_mem_lineage
      rw [reload_of_parent? hp]
      refine .ite (moves_orInvalid ?_ r) (.pure _)
      exact moves_loadSubtree (fun _ _ => leaves_loadVersioned htarget)
        (fun _ _ => leaves_of_writes (moves_scanUnversioned _ _ _))
        (fun _ _ => .single (.of_jobs_eq rfl)) (moves_cachedOr hparent p) depth

/-! ### Asking for a resource, and what follows -/

/-- The first part of a load with a cache: what the backend is asked for a resource, and answers. -/
def askReload (env : Env) (r : Resource) (depth : Depth) : Action (Option Batch) :=
  match r.parent?, r.project?.bind env.host.binding? with
  | some parent, some binding =>
    if env.isAccessible r && !env.host.isInternal r then
      askKnown env (cachedOr env parent (reload env parent .one)) r parent binding depth
    else return none
  | _, _ => return none

/-- An answer comes from asking the backend for the resource. -/
theorem exists_askVersioned {lookupParent : Action Record} {binding : Binding}
    (hask : (askKnown env lookupParent r parent binding depth).run w = (.ok (some batch), u)) :
    ∃ v, (askVersioned env r parent binding depth).run v = (.ok (some batch), u) := by
  have hversioned : ∀ (isVersioned : Bool) (v : World),
      (if isVersioned then askVersioned env r parent binding depth else pure none).run v =
        (.ok (some batch), u) →
      ∃ v, (askVersioned env r parent binding depth).run v = (.ok (some batch), u) := by
    intro isVersioned v hrun
    split at hrun
    · exact ⟨v, hrun⟩
    · cases hrun
  unfold askKnown at hask
  simp only [pure_bind] at hask
  split at hask
  · split at hask
    · exact hversioned true w hask
    · rw [run_bind] at hask
      rcases hparent : lookupParent.run w with ⟨err | above, v⟩ <;> rw [hparent] at hask
      · cases hask
      · exact hversioned _ v hask
  · cases hask

/-- The target of an answer is the container that was asked about. -/
theorem target_of_askVersioned {binding : Binding}
    (hask : (askVersioned env r parent binding depth).run w = (.ok (some batch), u)) :
    batch.target = if r.isContainer then r else parent := by
  unfold askVersioned at hask
  simp only at hask
  split at hask
  · rw [run_bind] at hask
    split at hask <;> cases hask
    rfl
  · cases hask

/-- On the way to a resource only its ancestors leave jobs. -/
theorem leaves_askReload (r : Resource) (depth : Depth) :
    Moves (Leaves (· ∈ r.ancestors)) (askReload env r depth) := by
  unfold askReload
  split
  next parent binding hp _ =>
    refine .ite ?_ (.pure _)
    have hparent : Moves (Leaves (· ∈ r.ancestors)) (reload env parent .one) := by
      rw [Resource.ancestors_of_parent? hp]
      exact leaves_reload parent .one
    have hask : ∀ isVersioned : Bool, Moves (Leaves (· ∈ r.ancestors))
        (if isVersioned then askVersioned env r parent binding depth else pure none) := by
      refine fun isVersioned => .ite ?_ (.pure _)
      unfold askVersioned
      simp only
      split
      · exact .bind (leaves_of_asks (asks_askEntries _ _)) fun entries => .pure _
      · exact .pure _
    unfold askKnown
    refine .ite (.ite (.bind (.pure _) hask) (.bind ?_ fun above => ?_)) (.pure _)
    · exact moves_cachedOr hparent parent
    · exact .bind (.pure _) hask
  · exact .pure _

/-- The answer for a container is about that container. -/
theorem target_of_askReload (hcontainer : r.isContainer)
    (hask : (askReload env r depth).run w = (.ok (some batch), u)) : batch.target = r := by
  unfold askReload at hask
  split at hask
  next parent binding _ _ =>
    split at hask
    · obtain ⟨v, hversioned⟩ := exists_askVersioned hask
      rw [target_of_askVersioned hversioned, if_pos hcontainer]
    · cases hask
  · cases hask

/-- Once the backend has answered, the answer is committed. -/
theorem run_reload_of_askReload (henabled : env.options.cacheEnabled)
    (hask : (askReload env r depth).run w = (.ok (some batch), u)) :
    (reload env r depth).run w =
      (orInvalid r (commitAnswer env depth (some batch) >>= orScan env r depth)).run u := by
  unfold askReload at hask
  split at hask
  next parent binding hp hbinding =>
    split at hask
    next hopen =>
      obtain ⟨haccessible, hinternal⟩ := Bool.and_eq_true_iff.1 hopen
      rw [reload_of_parent? hp, if_pos haccessible, loadSubtree, hbinding]
      simp only [henabled, if_true, Bool.not_true, Bool.false_eq_true, if_false, loadKnown_eq,
        bind_assoc]
      rw [if_neg (by simpa using hinternal)]
      rw [orInvalid, orInvalid, run_tryCatch, run_tryCatch, run_bind_ok hask]
    · cases hask
  · cases hask

/-- A scan always ends with an answer. -/
theorem run_orScan (env : Env) (r : Resource) (depth : Depth) (known : Option Record) (w : World) :
    ∃ answer w', (orScan env r depth known).run w = (.ok answer, w') ∧ w'.jobs = w.jobs := by
  have hscan : ∃ answer w', (scanUnversioned env r (env.host.isLinked r) depth).run w =
      (.ok answer, w') ∧ w'.jobs = w.jobs := by
    have hwrites : Moves (Write env) (scanUnversioned env r (env.host.isLinked r) depth) :=
      moves_scanUnversioned r _ depth
    have hjobs := jobs_of_writes hwrites w
    obtain ⟨records, x, hrun, -⟩ := run_scanUnversioned env r (env.host.isLinked r) depth w
    rw [hrun] at hjobs
    exact ⟨_, x, hrun, hjobs⟩
  cases known with
  | none => exact hscan
  | some record =>
    unfold orScan
    simp only
    split
    · exact hscan
    · exact ⟨record, w, rfl, rfl⟩

/-- **What a load with a cache hands out for a container**: the deferred folders in one job if there
are several, besides the jobs for the containers above. -/
theorem jobs_reload (hcontainer : r.isContainer) (henabled : env.options.cacheEnabled)
    (hdepth : depth ≠ .zero) (hask : (askReload env r depth).run w = (.ok (some batch), u))
    (hfill : (fill env batch).run u = (.ok (some answer, deferred), v)) :
    ∃ final w' above, (reload env r depth).run w = (.ok final, w') ∧
      (∀ job ∈ above, job.target ∈ r.ancestors) ∧
      w'.jobs = w.jobs ++ above ++
        if 1 < deferred.length then [{ target := r, entries := deferred }] else [] := by
  obtain ⟨above, habove, htargets⟩ : Leaves (· ∈ r.ancestors) w u := by
    have hleaves : Moves (Leaves (· ∈ r.ancestors)) (askReload env r depth) :=
      leaves_askReload r depth
    have hsteps := hleaves w
    rw [hask] at hsteps
    exact leaves_of_steps hsteps
  have hfilled : v.jobs = u.jobs := by
    have hwrites : Moves (Write env) (fill env batch) := moves_fill batch
    have hjobs := jobs_of_writes hwrites u
    rwa [hfill] at hjobs
  obtain ⟨_, _, herror, -⟩ | ⟨_, _, _, v', hsame, hcommit, -, -, hjobs⟩ :=
    run_commitAnswer env depth batch u
  · cases hfill.symm.trans herror
  cases hfill.symm.trans hsame
  obtain ⟨final, w', hscan, hkept⟩ := run_orScan env r depth (some answer) v'
  refine ⟨final, w', above, ?_, htargets, ?_⟩
  · rw [run_reload_of_askReload henabled hask]
    exact run_orInvalid_of_ok ((run_bind_ok hcommit).trans hscan) r
  · rw [hkept, hjobs, hfilled, habove]
    simp [Batch.left, hdepth, henabled, target_of_askReload hcontainer hask]

/-- **A folder that needs a deeper lookup is handed out if and only if it is not the only one.** A
container is loaded with a cache and with its children, and the answer of the backend yields a
record of it. Then the load succeeds, and so does a lookup that finds nothing cached. The folders
that are deferred are those that stay open among the new findings of the answer. A job that is left
for the container has all of them, and each of them stands in one if and only if another one stays
open, which may be the container itself. -/
theorem handedOut_iff (hcontainer : r.isContainer) (henabled : env.options.cacheEnabled)
    (hdepth : depth ≠ .zero) (hask : (askReload env r depth).run w = (.ok (some batch), u))
    (hfill : (fill env batch).run u = (.ok (some answer, deferred), v)) :
    ∃ final w' left, (reload env r depth).run w = (.ok final, w') ∧
      (w.state.cache.get? r = none → (lookup env r depth).run w = (.ok final, w')) ∧
      w'.jobs = w.jobs ++ left ∧
      (∀ e, e ∈ deferred ↔ ∃ f, Open (batch.news env u) f ∧ f.entry = e) ∧
      (∀ job ∈ left, job.target = r → job.entries = deferred) ∧
      ∀ f, Open (batch.news env u) f →
        ((∃ job ∈ left, job.target = r ∧ f.entry ∈ job.entries) ↔
          ∃ g, Open (batch.news env u) g ∧ g.resource ≠ f.resource) := by
  obtain ⟨final, w', above, hrun, htargets, hjobs⟩ :=
    jobs_reload hcontainer henabled hdepth hask hfill
  -- The jobs for the containers above are about those, so that this one has one job at most.
  have hown : ∀ job ∈ above ++ (if 1 < deferred.length then
        [{ target := r, entries := deferred }] else [] : List FetchJob),
      job.target = r → 1 < deferred.length ∧ job = { target := r, entries := deferred } := by
    rintro job hjob rfl
    rcases List.mem_append.1 hjob with hjob | hjob
    · exact absurd (htargets job hjob) (Resource.not_mem_ancestors_self _)
    · split at hjob
      next hseveral => exact ⟨hseveral, List.mem_singleton.1 hjob⟩
      · cases hjob
  refine ⟨final, w', _, hrun, fun hmiss => ?_, by rw [hjobs, List.append_assoc],
    fun e => mem_deferred hfill, fun job hjob htarget => ?_, fun f hf => ?_⟩
  · rw [lookup, run_cachedOr_of_not_cached hmiss, hrun]
  · rw [(hown job hjob htarget).2]
  · rw [← one_lt_length_deferred hfill hf]
    constructor
    · rintro ⟨job, hjob, htarget, -⟩
      exact (hown job hjob htarget).1
    · intro hseveral
      refine ⟨{ target := r, entries := deferred }, List.mem_append_right _ ?_, rfl,
        (mem_deferred hfill).2 ⟨f, hf, rfl⟩⟩
      rw [if_pos hseveral]
      exact List.mem_singleton_self _

/-- **The only folder of a container is lost.** A project with the folder `a` in it is looked up
with its children. The folder is deferred, and it is in no job for the project. -/
theorem handedOut_iff_single :
    let entries := [Checkout.root, Checkout.folder "wc/a" "http://h/r/trunk/a"]
    let env := Checkout.lookupEnv [(["wc", "a"], .dir 0)] { status := [("wc", .ok entries)] }
    let project := Checkout.project
    let w := Checkout.world
    ∃ batch u answer deferred v e final w',
      (askReload env project .one).run w = (.ok (some batch), u) ∧
      (fill env batch).run u = (.ok (some answer, deferred), v) ∧
      e ∈ deferred ∧ e.path = ⟨"wc/a"⟩ ∧
      (lookup env project .one).run w = (.ok final, w') ∧
      ∀ job ∈ w'.jobs, job.target = project → e ∉ job.entries := by
  intro entries env project w
  let batch := Checkout.batch entries
  let u : World :=
    { w with calls := [.status ⟨"wc"⟩ .immediates { unchanged := true, ignored := true }] }
  have hversioned : (askVersioned env project .root ⟨⟨"wc"⟩, Checkout.trunk⟩ .one).run w =
      (.ok (some batch), u) :=
    run_askVersioned_checkout rfl (by decide +kernel)
  have hask : (askReload env project .one).run w = (.ok (some batch), u) := by
    have hparent : project.parent? = some .root := by decide +kernel
    have hbinding : project.project?.bind env.host.binding? = some ⟨⟨"wc"⟩, Checkout.trunk⟩ := rfl
    have hopen : (env.isAccessible project && !env.host.isInternal project) = true := by
      decide +kernel
    have hlinked : env.host.isLinked project = false := by decide +kernel
    rw [askReload, hparent, hbinding]
    simp only [hopen, if_true, askKnown, hlinked]
    exact hversioned
  have hnews : (batch.news env u).map (fun f => (f.resource, f.kind, f.entry.path)) =
      [(project, .dir, ⟨"wc"⟩), (.folder "/p/a", .dir, ⟨"wc/a"⟩)] := by decide +kernel
  have hfound : (match ((fill env batch).run u).1 with
    | .ok (answer, _) => answer.isSome
    | .error _ => false) = true := by decide +kernel
  rcases hfill : (fill env batch).run u with ⟨err | ⟨answer | answer, deferred⟩, v⟩ <;>
    rw [hfill] at hfound
  · cases hfound
  · cases hfound
  obtain ⟨final, w', left, -, hlookup, hjobs, hdeferred, -, hhanded⟩ :=
    handedOut_iff rfl rfl (by decide) hask hfill
  obtain ⟨container, rest, hall, hcontainer, hrest⟩ := List.map_eq_cons_iff.1 hnews
  obtain ⟨child, rest, rfl, hchild, hnil⟩ := List.map_eq_cons_iff.1 hrest
  obtain rfl := List.map_eq_nil_iff.1 hnil
  simp only [Prod.mk.injEq] at hcontainer hchild
  have hopen : Open (batch.news env u) child := ⟨[container], [], hall, hchild.2.1, by simp⟩
  -- The child comes after the container and lies directly in it, so that it alone stays open.
  have halone : ¬∃ g, Open (batch.news env u) g ∧ g.resource ≠ child.resource := by
    rintro ⟨g, hg, hne⟩
    rw [hall, ← List.singleton_append, open_append_singleton] at hg
    rcases hg with ⟨rfl, -⟩ | ⟨hg, hparent, -⟩
    · exact hne rfl
    · rw [← List.nil_append [container], open_append_singleton] at hg
      rcases hg with ⟨rfl, -⟩ | ⟨hg, -⟩
      · exact hparent (by rw [hchild.1, hcontainer.1]; decide +kernel)
      · exact not_open_nil g hg
  refine ⟨batch, u, answer, deferred, v, child.entry, final, w', hask, hfill,
    (hdeferred _).2 ⟨child, hopen, rfl⟩, hchild.2.2, hlookup rfl, fun job hjob htarget hentry => ?_⟩
  rw [hjobs] at hjob
  exact halone ((hhanded child hopen).1 ⟨job, hjob, htarget, hentry⟩)

end Lookup
end StatusCache
