/-
# What a refresh leaves behind

A refresh takes its resources one after the other. For each it drops the buckets below it that the
depth spans, as far as the walk through the buckets gets, and the bucket of its parent. Dropping the
bucket of the parent takes the records of the siblings, but leaves what is kept below them: a later
walk does not get to that any more.

So a record goes if and only if one of the resources takes it at its turn (`isSome_refresh`). What
always goes are the resources themselves and their children. For a resource with no other refreshed
one above or below it, all of its range goes if and only if every container strictly between it and
a record has a record (`cleared_iff_of_apart`). `refresh_cleared_iff` states this for every session.
-/

import Mathlib
import StatusCache.Proofs.Storage.Reachable
import StatusCache.Proofs.Topmost

namespace StatusCache

open Resource (mem_lineage_total)

namespace Storage

variable {r d p : Resource} {depth : Depth}

/-- Whether refreshing `r` takes the record of `d`, given what has a record: it does if the two have
the same parent, or if the depth covers `d` and every container strictly between has a record. -/
def Takes (has : Resource → Prop) (depth : Depth) (r d : Resource) : Prop :=
  (∃ p, d.parent? = some p ∧ r.parent? = some p) ∨
    (depth.Covers r d ∧ ∀ k ∈ d.ancestors, r ∈ k.ancestors → has k)

/-- Whether the record of `d` outlasts the refresh of some resources, the last of them first. -/
def Survives (c : Cache) (depth : Depth) : List Resource → Resource → Prop
  | [], d => (c.get? d).isSome
  | r :: earlier, d =>
    Survives c depth earlier d ∧ ¬Takes (Survives c depth earlier) depth r d

/-- No record of a resource is left, nor of what a depth covers below it. -/
def Cleared (c : Cache) (depth : Depth) (r : Resource) : Prop :=
  c.get? r = none ∧ ∀ d, depth.Covers r d → c.get? d = none

variable {c : Cache} {state : State} {s : Session} {rs : List Resource}

/-! ### One resource after the other -/

/-- One resource drops the buckets that are attached below it, and that of its parent. -/
theorem drops_refreshOne (h : state.cache.Coherent) (depth : Depth) (r : Resource) :
    state.cache.Drops
      (fun k => (k.isContainer ∧ depth.Spans r k ∧ state.cache.Attached r k) ∨ r.parent? = some k)
      (refreshOne depth state r).cache := by
  have hdrops := Cache.drops_invalidate h r depth
  unfold refreshOne
  simp only
  split
  next parent hp =>
    refine (hdrops.trans (Cache.Drops.removeBucket _ parent)).congr fun k => or_congr_right ?_
    rw [hp, Option.some.injEq, eq_comm]
  next hp => exact hdrops.congr fun k => by simp [hp]

/-- What is taken, by the parent. -/
theorem takes_iff (has : Resource → Prop) (depth : Depth) (r : Resource)
    (hp : d.parent? = some p) : Takes has depth r d ↔ r.parent? = some p ∨
      (p.isContainer ∧ depth.Spans r p ∧ ∀ k ∈ p.lineage, r ∈ k.ancestors → has k) := by
  rw [Takes, Depth.covers_iff hp, Resource.ancestors_of_parent? hp]
  simp [hp, Resource.isContainer_of_parent? hp, Resource.lineage]

/-- A record is left after one resource if this does not take it. -/
theorem isSome_refreshOne (h : state.cache.Coherent) (depth : Depth) (r d : Resource) :
    ((refreshOne depth state r).cache.get? d).isSome ↔
      (state.cache.get? d).isSome ∧ ¬Takes (fun k => (state.cache.get? k).isSome) depth r d := by
  have hdrops := drops_refreshOne h depth r
  have hafter := coherent_refreshOne h depth r
  cases hp : d.parent? with
  | none => simp [Cache.get?, hp]
  | some p =>
    have htakes := takes_iff (fun k => (state.cache.get? k).isSome) depth r hp
    rw [or_comm] at htakes
    by_cases htaken : Takes (fun k => (state.cache.get? k).isSome) depth r d
    · have hnone := hdrops.get?_of_gone hafter hp (htakes.1 htaken)
      simp [hnone, htaken]
    · have hkept := hdrops.get?_of_kept h hafter (r := d) fun q hq hS => by
        obtain rfl := Option.some.inj (hp.symm.trans hq)
        exact htaken (htakes.2 hS)
      simp [hkept, htaken]

/-- **What is left of a cache after a refresh.** -/
theorem isSome_refresh (h : state.cache.Coherent) (rs : List Resource) (depth : Depth)
    (d : Resource) : ((rs.foldl (refreshOne depth) state).cache.get? d).isSome ↔
      Survives state.cache depth rs.reverse d := by
  induction rs using List.reverseRecOn generalizing d with
  | nil => rfl
  | append_singleton rs r ih =>
    rw [List.foldl_append, List.foldl_cons, List.foldl_nil,
      isSome_refreshOne (coherent_refresh h depth), List.reverse_append, List.reverse_singleton,
      List.singleton_append, Survives, ih]
    have hhas : (fun k => ((rs.foldl (refreshOne depth) state).cache.get? k).isSome = true) =
        Survives state.cache depth rs.reverse := funext fun k => propext (ih k)
    rw [hhas]

/-! ### What is left in the range of a refresh -/

/-- What survives had a record. -/
theorem Survives.isSome (h : Survives c depth rs d) : (c.get? d).isSome := by
  induction rs with
  | nil => exact h
  | cons r earlier ih => exact ih h.1

/-- What is taken in any case does not survive. -/
theorem not_survives_of_takes (h : ∀ has : Resource → Prop, Takes has depth r d) (hr : r ∈ rs) :
    ¬Survives c depth rs d := by
  induction rs with
  | nil => cases hr
  | cons first earlier ih =>
    rintro ⟨hearlier, hnot⟩
    rcases List.mem_cons.1 hr with rfl | hr
    · exact hnot (h _)
    · exact ih hr hearlier

/-- A refreshed resource is taken, unless it is the root, which has no record. -/
theorem not_survives_self (hr : r ∈ rs) : ¬Survives c depth rs r := by
  cases hp : r.parent? with
  | none =>
    intro h
    simpa [Cache.get?, hp] using h.isSome
  | some p => exact not_survives_of_takes (fun _ => Or.inl ⟨p, hp, hp⟩) hr

/-- So are its children: nothing lies strictly between. -/
theorem not_survives_child (hr : r ∈ rs) (hd : d.parent? = some r) : ¬Survives c depth rs d := by
  refine not_survives_of_takes (fun has => Or.inr ⟨Depth.covers_of_parent? hd, ?_⟩) hr
  intro k hk hbetween
  exfalso
  have hlt := Resource.length_ancestors_lt hbetween
  rcases (Resource.mem_ancestors_of_parent? hd).1 hk with rfl | hk
  · omega
  · have := Resource.length_ancestors_lt hk
    omega

/-- Of the resources that lie neither above nor below `r`, only `r` itself takes what is below. -/
theorem takes_iff_of_apart {a : Resource} (has : Resource → Prop) (hbelow : r ∉ a.ancestors)
    (habove : a ∉ r.ancestors) (hd : r ∈ d.ancestors) :
    Takes has depth a d ↔
      a = r ∧ depth.Covers r d ∧ ∀ k ∈ d.ancestors, r ∈ k.ancestors → has k := by
  constructor
  · rintro (⟨p, hp, ha⟩ | ⟨hcovers, hhas⟩)
    · rw [Resource.ancestors_of_parent? hp, ← Resource.ancestors_of_parent? ha] at hd
      exact absurd hd hbelow
    · have heq : a = r := by
        rcases mem_lineage_total (List.mem_cons_of_mem _ hcovers.mem_ancestors)
          (List.mem_cons_of_mem _ hd) with h | h
        · exact (List.mem_cons.1 h).resolve_right habove
        · exact ((List.mem_cons.1 h).resolve_right hbelow).symm
      subst heq
      exact ⟨rfl, hcovers, hhas⟩
  · rintro ⟨rfl, hcovers, hhas⟩
    exact Or.inr ⟨hcovers, hhas⟩

/-- Where no other refreshed resource lies above or below `r`, a record below `r` is taken if and
only if `r` is refreshed, the depth covers the record, and nothing strictly between lacks one. -/
theorem survives_iff_of_apart (hapart : ∀ a ∈ rs, r ∉ a.ancestors ∧ a ∉ r.ancestors)
    (hd : r ∈ d.ancestors) :
    Survives c depth rs d ↔ (c.get? d).isSome ∧
      ¬(r ∈ rs ∧ depth.Covers r d ∧
        ∀ k ∈ d.ancestors, r ∈ k.ancestors → (c.get? k).isSome) := by
  induction rs generalizing d with
  | nil => simp [Survives]
  | cons a earlier ih =>
    have hrest := fun (d : Resource) (hd : r ∈ d.ancestors) =>
      ih (fun b hb => hapart b (List.mem_cons_of_mem _ hb)) hd
    obtain ⟨hbelow, habove⟩ := hapart a List.mem_cons_self
    rw [Survives, takes_iff_of_apart _ hbelow habove hd, hrest d hd, List.mem_cons]
    by_cases hr : r ∈ earlier
    · -- An earlier walk from `r` has already taken what a later one could take.
      have hgaps : (∀ k ∈ d.ancestors, r ∈ k.ancestors → Survives c depth earlier k) →
          ∀ k ∈ d.ancestors, r ∈ k.ancestors → (c.get? k).isSome :=
        fun h k hk hbetween => (h k hk hbetween).isSome
      tauto
    · have hsame : (∀ k ∈ d.ancestors, r ∈ k.ancestors → Survives c depth earlier k) ↔
          ∀ k ∈ d.ancestors, r ∈ k.ancestors → (c.get? k).isSome :=
        forall_congr' fun k => imp_congr_right fun _ => forall_congr' fun hbetween => by
          simp [hrest k hbetween, hr]
      rw [hsame]
      simp only [hr, false_and, not_false_eq_true, and_true, or_false, eq_comm]

/-- A refresh leaves without a record what does not survive. -/
theorem get?_refresh_eq_none (h : state.cache.Coherent) (rs : List Resource) (depth : Depth)
    (d : Resource) : (rs.foldl (refreshOne depth) state).cache.get? d = none ↔
      ¬Survives state.cache depth rs.reverse d := by
  rw [← isSome_refresh h, Option.not_isSome_iff_eq_none]

/-- A refresh clears a resource if nothing at or below it survives. -/
theorem cleared_iff (h : state.cache.Coherent) (rs : List Resource) (depth : Depth)
    (r : Resource) : Cleared (rs.foldl (refreshOne depth) state).cache depth r ↔
      ∀ d, d = r ∨ depth.Covers r d → ¬Survives state.cache depth rs.reverse d := by
  simp only [Cleared, get?_refresh_eq_none h, or_imp, forall_and, forall_eq]

/-- **A refresh clears the range of a resource that is apart from the others** if and only if every
container strictly between it and a record in its range has a record. -/
theorem cleared_iff_of_apart (h : state.cache.Coherent) (depth : Depth) (hr : r ∈ rs)
    (hapart : ∀ a ∈ rs, r ∉ a.ancestors ∧ a ∉ r.ancestors) :
    Cleared (rs.foldl (refreshOne depth) state).cache depth r ↔
      ∀ d, depth.Covers r d → (state.cache.get? d).isSome →
        ∀ k ∈ d.ancestors, r ∈ k.ancestors → (state.cache.get? k).isSome := by
  have hr := List.mem_reverse.2 hr
  have hapart : ∀ a ∈ rs.reverse, r ∉ a.ancestors ∧ a ∉ r.ancestors :=
    fun a ha => hapart a (List.mem_reverse.1 ha)
  rw [cleared_iff h]
  constructor
  · intro hgone d hd hsome
    have := hgone d (Or.inr hd)
    rw [survives_iff_of_apart hapart hd.mem_ancestors] at this
    tauto
  · rintro hattached d (rfl | hd)
    · exact not_survives_self hr
    · have := hattached d hd
      rw [survives_iff_of_apart hapart hd.mem_ancestors]
      tauto

/-- The topmost resources are apart from each other, where a container above one is told by its
segments. -/
theorem apart_topmost (habove : ∀ r ∈ rs, ∀ a ∈ r.ancestors, a.isAncestorOf r) {a : Resource}
    (ha : a ∈ Resource.topmost rs) (hr : r ∈ Resource.topmost rs) : r ∉ a.ancestors := by
  rw [Resource.mem_topmost] at ha hr
  exact fun hmem => ha.2 r hr.1 (habove a ha.1 r hmem)

/-- A refresh of whole subtrees clears each of the topmost places if and only if every container
strictly between it and a record has a record. -/
theorem cleared_topmost_iff (h : state.cache.Coherent) (hrs : ∀ r ∈ rs, r.WellFormed)
    (hr : r ∈ Resource.topmost rs) :
    Cleared ((Resource.topmost rs).foldl (refreshOne .infinite) state).cache .infinite r ↔
      ∀ d, r ∈ d.ancestors → (state.cache.get? d).isSome →
        ∀ k ∈ d.ancestors, r ∈ k.ancestors → (state.cache.get? k).isSome :=
  have habove : ∀ r ∈ rs, ∀ a ∈ r.ancestors, a.isAncestorOf r := fun r hr _ ha =>
    (hrs r hr).isAncestorOf_of_mem_ancestors ha
  cleared_iff_of_apart h .infinite hr fun _ ha =>
    ⟨apart_topmost habove ha hr, apart_topmost habove hr ha⟩

/-- **When a refresh leaves nothing in its range.** It always takes the resources that it walks
down from, and their children. Nothing further down is left if and only if nothing survives the
walks. If no other resource of the refresh lies above or below, then nothing is left if and only if
every container strictly between the resource and a record in its range has a record. -/
theorem refresh_cleared_iff (h : Reachable s) (rs : List Resource) (depth : Depth) :
    let roots := if depth = .infinite then Resource.topmost rs else rs
    let before := s.storage.state.cache
    let after := ((refresh rs depth).run s).2.storage.state.cache
    (∀ r ∈ roots, after.get? r = none ∧ ∀ d, d.parent? = some r → after.get? d = none) ∧
    (∀ r, Cleared after depth r ↔
      ∀ d, d = r ∨ depth.Covers r d → ¬Survives before depth roots.reverse d) ∧
    (∀ r ∈ roots, (∀ a ∈ roots, r ∉ a.ancestors ∧ a ∉ r.ancestors) →
      (Cleared after depth r ↔ ∀ d, depth.Covers r d → (before.get? d).isSome →
        ∀ k ∈ d.ancestors, r ∈ k.ancestors → (before.get? k).isSome)) := by
  intro roots before after
  have hnone : ∀ d, after.get? d = none ↔ ¬Survives before depth roots.reverse d :=
    get?_refresh_eq_none h.coherent roots depth
  refine ⟨fun r hr => ⟨?_, fun d hd => ?_⟩, cleared_iff h.coherent roots depth,
    fun r hr hapart => cleared_iff_of_apart h.coherent depth hr hapart⟩
  · exact (hnone r).2 (not_survives_self (List.mem_reverse.2 hr))
  · exact (hnone d).2 (not_survives_child (List.mem_reverse.2 hr) hd)

/-- Refreshing a sibling of a folder takes the record of the folder, and what is kept below the
folder is then out of reach: a refresh of the whole project leaves it. -/
theorem refresh_cleared_iff_gap :
    let env : Env :=
      { backend := { status := fun _ _ _ _ => .ok [], info := fun _ _ _ => .ok [] }
        host :=
          { binding? := fun _ => some default
            isAccessible := fun _ => true
            isPresent := fun _ => true
            location? := fun _ => none
            member? := fun _ _ => none
            members := fun _ => []
            resourceAt? := fun _ _ => none
            isSymlink := fun _ => false
            isLinked := fun _ => false
            isInternal := fun _ => false
            isIgnored := fun _ => false
            isBuildOutput := fun _ => false
            height := 0 }
        disk := {}
        now := 0 }
    let start : Session := { storage := make {} 0 }
    let s := Request.run env (Request.run env start (.status (.file "/p/a/f")))
      (.refresh [.file "/p/r"] .zero)
    Reachable s ∧ ¬Cleared ((refresh [.project "p"] .infinite).run s).2.storage.state.cache
      .infinite (.project "p") := by
  intro env start s
  have hs : Reachable s := .request (.request (.start {} 0) env _) env _
  refine ⟨hs, fun hcleared => ?_⟩
  have hfile : (s.storage.state.cache.get? (.file "/p/a/f")).isSome := by
    unfold s start env
    cbv
  have hfolder : s.storage.state.cache.get? (.folder "/p/a") = none := by
    unfold s start env
    cbv
  have hfolderMem : Resource.folder "/p/a" ∈ (Resource.file "/p/a/f").ancestors :=
    Resource.parent?_mem_ancestors (by cbv)
  have hprojectMem : Resource.project "p" ∈ (Resource.folder "/p/a").ancestors :=
    Resource.parent?_mem_ancestors (by cbv)
  have hroots : Resource.topmost [.project "p"] = [.project "p"] := by cbv
  obtain ⟨-, -, hexact⟩ := refresh_cleared_iff hs [.project "p"] .infinite
  simp only [if_true, hroots, List.mem_singleton, forall_eq] at hexact
  have hself := Resource.not_mem_ancestors_self (.project "p")
  have hrecord := (hexact ⟨hself, hself⟩).1 hcleared (.file "/p/a/f")
    (Resource.mem_ancestors_trans hprojectMem hfolderMem) hfile _ hfolderMem hprojectMem
  rw [hfolder] at hrecord
  cases hrecord

end Storage
end StatusCache
