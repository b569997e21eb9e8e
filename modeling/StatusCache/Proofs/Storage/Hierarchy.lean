/-
# URLs along the hierarchy

The repository node of a place is expected to be the one of its parent, one segment further down.
That is so where both take their URLs from the index (`Switched.resolve?_of_parent?`), and where both
take them from the project (`Url.append_projectPath_of_parent?`). But whether a place takes its URL
from the index is asked anew at every place: it does if it has a URL of its own there, and else if
the nearest cached container above it is flagged. So a place and its parent may be told by different
rules, and then their URLs go apart (`nodeUrl?_parent_iff`).
-/

import StatusCache.Proofs.Checkout
import StatusCache.Proofs.Cache.Switched
import StatusCache.Proofs.Storage.NodeUrl
import StatusCache.Proofs.Storage.Operation

namespace StatusCache

open Resource (Proper)

variable {r p project : Resource} {base : String}

namespace Url

/-- One segment below two URLs gives two URLs, unless these name one place. -/
theorem append_inj {name : String} (h : Text.Segment '/' name) (url url' : String) :
    append url name = append url' name ↔ Same url url' := by
  have hone : ∀ s ∈ [name], Text.Segment '/' s := by simpa using h
  simpa using append_join_inj hone (List.cons_ne_nil _ _) url url'

/-- Below the URL of a project, URLs follow the hierarchy. -/
theorem append_projectPath_of_parent? (base : String) (hr : r.Proper) (hp : r.parent? = some p)
    (hroot : p.kind ≠ .root) :
    append base r.projectPath = append (append base p.projectPath) r.name := by
  have hpr : p ∈ r.lineage := (Resource.mem_lineage_of_parent? hp).2 (.inr p.self_mem_lineage)
  have hrelative : r.relativeTo? p = some r.name := by
    rw [hr.relativeTo?_eq hpr (hr.segments_of_parent? hp), Text.join_singleton]
  rw [← append_projectPath base hr hpr hroot, hrelative, Option.getD_some]

end Url

namespace Storage

variable {env : Env} {s : Session} {st : State} {binding : Binding}

/-- Whether a resource takes over the URL of a switched container, if it has none of its own. -/
def Inherits (st : State) (r : Resource) : Prop := (st.cache.nearestAbove? r).any (·.mask.switched)

/-- Whether a resource of a project takes its URL from the index. The project never does. -/
def Redirected (st : State) (project r : Resource) : Prop :=
  r ≠ project ∧ ((st.switched.get? r).isSome ∨ Inherits st r)

instance (st : State) (r : Resource) : Decidable (Inherits st r) :=
  inferInstanceAs (Decidable (_ = true))

instance (st : State) (project r : Resource) : Decidable (Redirected st project r) :=
  inferInstanceAs (Decidable (_ ∧ _))

/-- **The URL of a place in a project**: that which the index has for it, if it is redirected, or
else its path below the URL of the project. -/
theorem nodeUrl?_of_proper (hr : r.Proper) (hproject : r.project? = some project)
    (hbinding : env.host.binding? project = some binding) (s : Session) :
    nodeUrl? env s r = some
      ((if Redirected s.storage.state project r then s.storage.state.switched.resolve? r
        else none).getD (Url.append binding.node.url r.projectPath)) := by
  by_cases hinside : r = project
  · obtain ⟨name, below, hsegments, hname⟩ := hr.exists_project hproject
    have hempty : r.projectPath = "" := by
      rw [Resource.projectPath, hr.names_eq, hinside, hname]
      rfl
    have hnot : ¬Redirected s.storage.state project r := fun h => h.1 hinside
    rw [if_neg hnot, Option.getD_none, hempty, Url.append_empty]
    unfold nodeUrl? node
    simp only [hproject, hbinding]
    rw [if_pos hinside]
    rfl
  · rw [nodeUrl?_eq hproject hbinding hinside, nodeUrl, switchedUrl?]
    cases hown : s.storage.state.switched.get? r with
    | some url =>
      have hresolve : s.storage.state.switched.resolve? r = some url := by
        rw [Switched.resolve?, hown]
      have hredirected : Redirected s.storage.state project r := ⟨hinside, .inl (by rw [hown]; rfl)⟩
      rw [if_pos hredirected, hresolve]
    | none =>
      have hiff : Redirected s.storage.state project r ↔ Inherits s.storage.state r := by
        simp [Redirected, hinside, hown]
      rw [if_congr hiff rfl rfl]
      rfl

/-- **When URLs follow the hierarchy.** The repository node of a place strictly inside of a project,
without a URL of its own in the index, is the one of its parent, one segment further down, if and
only if the index has nothing else to say about the parent than the project, or the two go by the
same rule: the nearest cached container above the place is flagged just if the parent takes its URL
from the index. -/
theorem nodeUrl?_parent_iff (s : Session) (hr : r.Proper) (hp : r.parent? = some p)
    (hproject : r.project? = some project) (hinside : r ≠ project)
    (hown : s.storage.state.switched.get? r = none) :
    nodeUrl? env s r = (nodeUrl? env s p).map (fun url => Url.append url r.name) ↔
      ∀ binding ∈ env.host.binding? project, ∀ url ∈ s.storage.state.switched.resolve? p,
        Url.Same url (Url.append binding.node.url p.projectPath) ∨
          (Inherits s.storage.state r ↔ Redirected s.storage.state project p) := by
  have hroot := hr.kind_ne_root_of_parent? hp hproject hinside
  have hpproject : p.project? = some project :=
    (Resource.project?_of_parent? hp hroot).trans hproject
  cases hbinding : env.host.binding? project with
  | none =>
    have hnone : ∀ x : Resource, x.project? = some project → nodeUrl? env s x = none := by
      intro x hx
      unfold nodeUrl? node
      simp only [hx, hbinding]
      rfl
    rw [hnone r hproject, hnone p hpproject]
    exact iff_of_true rfl fun _ h => nomatch h
  | some binding =>
    have hrule : Redirected s.storage.state project r ↔ Inherits s.storage.state r := by
      simp [Redirected, hinside, hown]
    -- Both nodes are spelled out; appending one segment is injective, which leaves the rules.
    rw [nodeUrl?_of_proper hr hproject hbinding,
      nodeUrl?_of_proper (hr.of_parent? hp) hpproject hbinding,
      Switched.resolve?_of_parent? hr.toWellFormed hr.plain hp hown,
      Url.append_projectPath_of_parent? binding.node.url hr hp hroot, if_congr hrule rfl rfl]
    have hinj := Url.append_inj (hr.segment_name hp)
    simp only [Option.mem_def, Option.some.injEq, forall_eq']
    generalize Url.append binding.node.url p.projectPath = plain
    cases s.storage.state.switched.resolve? p with
    | none => simp
    | some url =>
      by_cases hinherits : Inherits s.storage.state r <;>
        by_cases hredirected : Redirected s.storage.state project p <;>
        simp [hinherits, hredirected, hinj, Url.Same, eq_comm]

/-- Below a switched folder whose record a refresh has dropped with those of its siblings. -/
theorem nodeUrl?_parent_iff_dropped :
    let env := Checkout.env [(["wc", "a"], .dir 0)]
      { status := [("wc", .ok [Checkout.root]),
          ("wc/a", .ok [Checkout.folder "wc/a" "http://h/r/branches/b/a"])] }
    let s := Checkout.start.run
      [(env, .status (.folder "/p/a")), (env, .refresh [.file "/p/r.txt"] .zero)]
    nodeUrl? env s (.file "/p/a/new.txt") ≠
      (nodeUrl? env s (.folder "/p/a")).map fun url => Url.append url "new.txt" := by
  intro env s
  have hplace : (Resource.file "/p/a/new.txt").Proper :=
    Resource.proper_ofPath _ _ (.inr (by decide +kernel))
  have hown : s.storage.state.switched.get? (.file "/p/a/new.txt") = none := by
    unfold s env
    decide +kernel
  have hresolve : s.storage.state.switched.resolve? (.folder "/p/a") =
      some "http://h/r/branches/b/a" := by
    unfold s env
    decide +kernel
  have hbinding : env.host.binding? Checkout.project = some ⟨⟨"wc"⟩, Checkout.trunk⟩ := rfl
  have helse : ¬Url.Same "http://h/r/branches/b/a" (Url.append Checkout.trunk.url "a") := by
    decide +kernel
  have hrules : ¬(Inherits s.storage.state (.file "/p/a/new.txt") ↔
      Redirected s.storage.state Checkout.project (.folder "/p/a")) := by
    unfold s env
    decide +kernel
  have hparent : (Resource.file "/p/a/new.txt").parent? = some (.folder "/p/a") := by decide +kernel
  have hproject : (Resource.file "/p/a/new.txt").project? = some Checkout.project := by
    decide +kernel
  have hinside : Resource.file "/p/a/new.txt" ≠ Checkout.project := by decide +kernel
  intro hfollows
  rcases (nodeUrl?_parent_iff s hplace hparent hproject hinside hown).1 hfollows _ hbinding _
    hresolve with hsame | hrule
  · exact helse hsame
  · exact hrules hrule

end Storage
end StatusCache
