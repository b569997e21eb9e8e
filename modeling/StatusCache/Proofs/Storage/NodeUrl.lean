/-
# The URL of a described node

A storage derives the repository URL of a resource: from the index of switched resources, if that
has a URL at the resource or the nearest cached container above is flagged, and else from the URL of
the project (`nodeUrl`). The backend reports a URL with every node that it describes. A description
flags the node and notes the reported URL when the backend says that the node is switched or an
external, or when the reported URL is not at or below the expected one.

So what is derived for a flagged node is what was reported, and stays so
(`Later.get?_switched`). For any other node the description changes nothing that the URL is derived
from (`nodeUrl_of_unflagged`): the two agree if they did so before. Where nothing above is switched,
the derived URL is the expected one, and they disagree just for the nodes that the test lets pass, the
ones reported strictly below. `commit_nodeUrl` puts this together.
-/

import StatusCache.Proofs.Storage.Switched
import StatusCache.Proofs.Url
import StatusCache.Storage.Nodes

open Relation (ReflTransGen)

namespace StatusCache

open Resource (Proper)

namespace Storage

variable {env : Env} {s : Session} {st st' : State} {e : Lookup.Env} {w w' : Lookup.World}
  {r project : Resource} {record : Record} {binding : Binding} {base url : String}
  {batch : Lookup.Batch} {f : Lookup.Finding} {isExternal : Bool}

/-! ### Derived URLs -/

/-- The URL that is derived for a resource inside of a project with the given URL. -/
def nodeUrl (base : String) (st : State) (r : Resource) : String :=
  (switchedUrl? st r).getD (Url.append base r.projectPath)

/-- The URL of the repository node of a resource, if it has one. -/
def nodeUrl? (env : Env) (s : Session) (r : Resource) : Option String :=
  match ((node env r).run s).1 with
  | .ok n => some n.url
  | .error _ => none

/-- The repository node of a resource has a certain URL, up to slashes at the end. -/
def Agrees (env : Env) (s : Session) (r : Resource) (url : String) : Prop :=
  ∃ derived, nodeUrl? env s r = some derived ∧ Url.Same derived url

/-- Wrapping a location does not fail. -/
theorem run_wrap (l : Location) (url : String) (isFile : Bool) (s : Session) :
    ∃ l' s', (wrap l url isFile).run s = (.ok l', s') := ⟨_, _, rfl⟩

/-- **What is inside of a shared project has a repository node**, with the derived URL. -/
theorem nodeUrl?_eq (hproject : r.project? = some project)
    (hbinding : env.host.binding? project = some binding) (hinside : r ≠ project) (s : Session) :
    nodeUrl? env s r = some (nodeUrl binding.node.url s.storage.state r) := by
  unfold nodeUrl? node nodeUrl
  simp only [hproject, hbinding, hinside, if_false]
  rw [run_bind_ok (run_get s)]
  cases switchedUrl? s.storage.state r with
  | some url =>
    obtain ⟨l, s', hwrap⟩ := run_wrap binding.node.location url (!r.isContainer) s
    simp only
    rw [run_bind_ok hwrap]
    rfl
  | none =>
    generalize Url.append binding.node.url r.projectPath = url
    rfl

/-- A resource below a project has a URL if the one derived from the state is the same. -/
theorem agrees_iff (hproject : r.project? = some project)
    (hbinding : env.host.binding? project = some binding) (hinside : r ≠ project) (s : Session) :
    Agrees env s r url ↔ Url.Same (nodeUrl binding.node.url s.storage.state r) url := by
  simp [Agrees, nodeUrl?_eq hproject hbinding hinside]

/-! ### Later states -/

/-- One shared state comes from another by steps of lookups with a cache. -/
def Later : State → State → Prop :=
  ReflTransGen fun st st' => ∃ (e : Lookup.Env) (w w' : Lookup.World),
    e.options.cacheEnabled ∧ Lookup.Step e w w' ∧ w.state = st ∧ w'.state = st'

/-- With a cache, a request that looks something up leads to a later state. -/
theorem later_of_request {q : Request} (hq : q.Looks) (henabled : s.storage.cacheEnabled) :
    Later s.storage.state (q.run env s).storage.state :=
  (Request.state_invariant (I := Later s.storage.state) hq
    (fun e he hstep hw => hw.tail ⟨e, _, _, he.trans henabled, hstep, rfl, rfl⟩) .refl).1

/-- **What is cached stays cached, and keeps its own URL** unless another resource of its path is
held. -/
theorem Later.get?_switched (h : Later st st') (hcached : (st.cache.get? r).isSome)
    (hurl : st.switched.get? r = some url) :
    (st'.cache.get? r).isSome ∧ (st'.switched.get? r = some url ∨ Shared st'.cache r) := by
  have hput : ∀ {c : Cache} (record : Record), (c.get? r).isSome → ((c.put record).get? r).isSome :=
    fun {c} record hr => by
      rw [Cache.get?_put]
      split
      · rfl
      · exact hr
  -- Nothing is dropped while a cache is used; a URL is overwritten only by what has the same path.
  induction h with
  | refl => exact ⟨hcached, Or.inl hurl⟩
  | tail _ hlast ih =>
    obtain ⟨e, w, w', henabled, hstep, rfl, rfl⟩ := hlast
    obtain ⟨hr, hkept⟩ := ih
    cases hstep with
    | ask => exact ⟨hr, hkept⟩
    | leave => exact ⟨hr, hkept⟩
    | clear hdisabled => rw [henabled] at hdisabled; cases hdisabled
    | ensure container => simpa [Shared, Held] using ⟨hr, hkept⟩
    | plain node text mask => exact ⟨hput _ hr, hkept.imp_right fun hshared => hshared.put _⟩
    | describe batch f isExternal text hnew =>
      have hheld := held_put w.state.cache (e.committed (Lookup.recordOf batch f
        (w.state.cache.nearestAbove? f.resource) isExternal text))
      rw [Lookup.resource_committed] at hheld
      have hne : f.resource ≠ r := fun heq => by simp [← heq, hnew] at hr
      rw [Lookup.described, Lookup.cache_registered, Lookup.cache_noted,
        Lookup.switched_registered]
      refine ⟨hput _ hr, ?_⟩
      rcases hkept with hkept | hshared
      · unfold Lookup.noted
        split
        · rw [Switched.get?_insert]
          split
          next hpath => exact Or.inr ⟨f.resource, hne, hpath, hheld⟩
          · exact Or.inl hkept
        · exact Or.inl hkept
      · exact Or.inr (hshared.put _)

/-! ### Descriptions -/

/-- A record that is committed for a finding is described. -/
theorem exists_of_run_commit {above : Option Record}
    (h : (Lookup.commit e batch f above isExternal).run w = (.ok (some record), w')) :
    ∃ text, record = e.committed (Lookup.recordOf batch f above isExternal text) ∧
      w' = Lookup.described e batch f above isExternal text w := by
  rcases Lookup.run_commit e batch f above isExternal w with hrun | hrun | ⟨text, hrun⟩ <;>
    rw [hrun] at h <;> cases h
  exact ⟨text, rfl, rfl⟩

/-- **What is flagged**: what the backend calls switched or an external, and what it reports
elsewhere. -/
theorem switched_maskOf (hurl : f.entry.url = some url) (above : Option Record) :
    (Lookup.maskOf batch f above isExternal).switched ↔ f.entry.switched ∨ f.entry.fileExternal ∨
      ¬Url.isPrefix (batch.urlOf f.resource) (Url.decode url) := by
  simp [Lookup.maskOf, Lookup.isElsewhere, hurl, or_assoc]

/-- A flagged node is noted with the URL that was reported. -/
theorem get?_described {above : Option Record} {text : Status} (hurl : f.entry.url = some url)
    (hflag : (Lookup.maskOf batch f above isExternal).switched) :
    (Lookup.described e batch f above isExternal text w).state.switched.get? f.resource =
      some (Url.decode url) := by
  have hmask : (Lookup.recordOf batch f above isExternal text).mask.switched = true := hflag
  have hpath : (Lookup.recordOf batch f above isExternal text).resource.path = f.resource.path := rfl
  rw [Lookup.described, Lookup.switched_registered, Lookup.noted, if_pos hmask,
    Switched.get?_insert, if_pos hpath, hurl, Option.getD_some]

/-- The URL of a switched resource depends on the index and on the record above. -/
theorem switchedUrl?_congr (hswitched : st'.switched = st.switched)
    (habove : st'.cache.nearestAbove? r = st.cache.nearestAbove? r) :
    switchedUrl? st' r = switchedUrl? st r := by
  rw [switchedUrl?, switchedUrl?, hswitched, habove]

/-- A node that is not flagged keeps the URL that was derived for it before. -/
theorem nodeUrl_of_unflagged {above : Option Record} {text : Status}
    (hflag : ¬(Lookup.maskOf batch f above isExternal).switched) :
    nodeUrl base (Lookup.described e batch f above isExternal text w).state f.resource =
      nodeUrl base w.state f.resource := by
  have hnoted : Lookup.noted (Lookup.recordOf batch f above isExternal text)
      (Url.decode (f.entry.url.getD "")) w = w := if_neg hflag
  have habove := Cache.nearestAbove?_put w.state.cache
    (e.committed (Lookup.recordOf batch f above isExternal text))
  rw [Lookup.resource_committed] at habove
  have hsame : switchedUrl? (Lookup.described e batch f above isExternal text w).state f.resource =
      switchedUrl? w.state f.resource := by
    rw [Lookup.described, hnoted]
    exact switchedUrl?_congr rfl habove
  rw [nodeUrl, nodeUrl, hsame]

/-- Where nothing is switched, the derived URL is the one that a batch expects. -/
theorem nodeUrl_eq_urlOf (hplace : r.Proper) (hself : st.switched.get? r = none)
    (habove : ¬(st.cache.nearestAbove? r).any (·.mask.switched))
    (hdesired : batch.desiredUrl = Url.append base batch.target.projectPath)
    (htarget : batch.target ∈ r.lineage) (hroot : batch.target.kind ≠ .root) :
    nodeUrl base st r = batch.urlOf r := by
  have hnone : switchedUrl? st r = none := by
    rw [switchedUrl?, hself]
    exact if_neg habove
  rw [nodeUrl, hnone, Option.getD_none, Lookup.Batch.urlOf, hdesired,
    Url.append_projectPath base hplace htarget hroot]

/-- **When the derived URL is the reported one.** A node that is described with a URL is flagged if
the backend calls it switched or an external, or if the URL is not at or below the expected one.
From then on its repository node has that URL, unless another resource of its path is held. Right
after the description, the repository node has the reported URL, up to slashes at the end, if and
only if the node was flagged or its repository node had that URL before. So where nothing above is
switched, it has not the reported URL if and only if that lies strictly below the expected one and
the backend does not flag the node. -/
theorem commit_nodeUrl
    (hrun : (Lookup.commit e batch f (w.state.cache.nearestAbove? f.resource) isExternal).run w =
      (.ok (some record), w'))
    (hurl : f.entry.url = some url) (hplace : f.resource.Proper)
    (hproject : f.resource.project? = some project) (hinside : f.resource ≠ project)
    (hbinding : env.host.binding? project = some binding) :
    (record.mask.switched ↔ f.entry.switched ∨ f.entry.fileExternal ∨
      ¬Url.isPrefix (batch.urlOf f.resource) (Url.decode url)) ∧
    (record.mask.switched → ∀ s : Session, Later w'.state s.storage.state →
      nodeUrl? env s f.resource = some (Url.decode url) ∨
        Shared s.storage.state.cache f.resource) ∧
    (∀ before after : Session, before.storage.state = w.state → after.storage.state = w'.state →
      (Agrees env after f.resource (Url.decode url) ↔
        record.mask.switched ∨ Agrees env before f.resource (Url.decode url))) ∧
    (w.state.switched.get? f.resource = none →
      ¬(w.state.cache.nearestAbove? f.resource).any (·.mask.switched) →
      batch.desiredUrl = Url.append binding.node.url batch.target.projectPath →
      batch.target ∈ f.resource.lineage → batch.target.kind ≠ .root →
      ∀ after : Session, after.storage.state = w'.state →
        (¬Agrees env after f.resource (Url.decode url) ↔
          ¬f.entry.switched ∧ ¬f.entry.fileExternal ∧
          Url.isPrefix (batch.urlOf f.resource) (Url.decode url) ∧
          ¬Url.Same (batch.urlOf f.resource) (Url.decode url))) := by
  obtain ⟨text, hrecord, hw'⟩ := exists_of_run_commit hrun
  have hmask : record.mask =
      Lookup.maskOf batch f (w.state.cache.nearestAbove? f.resource) isExternal := by
    rw [hrecord, Lookup.mask_committed]
    rfl
  have hflagged : record.mask.switched ↔ f.entry.switched ∨ f.entry.fileExternal ∨
      ¬Url.isPrefix (batch.urlOf f.resource) (Url.decode url) := by
    rw [hmask]
    exact switched_maskOf hurl _
  have hderived : ∀ s : Session,
      nodeUrl? env s f.resource = some (nodeUrl binding.node.url s.storage.state f.resource) :=
    nodeUrl?_eq hproject hbinding hinside
  have hown : ∀ {st : State}, st.switched.get? f.resource = some (Url.decode url) →
      nodeUrl binding.node.url st f.resource = Url.decode url := by
    intro st hst
    rw [nodeUrl, switchedUrl?, hst, Option.getD_some]
  have hnoted : record.mask.switched →
      w'.state.switched.get? f.resource = some (Url.decode url) := by
    intro hflag
    rw [hmask] at hflag
    rw [hw']
    exact get?_described hurl hflag
  -- What is noted is noted with the flag; without it the index is as before, and so is the URL.
  have hagrees : ∀ before after : Session, before.storage.state = w.state →
      after.storage.state = w'.state → (Agrees env after f.resource (Url.decode url) ↔
        record.mask.switched ∨ Agrees env before f.resource (Url.decode url)) := by
    intro before after hbefore hafter
    rw [agrees_iff hproject hbinding hinside, agrees_iff hproject hbinding hinside, hbefore, hafter]
    by_cases hflag : record.mask.switched
    · simp [hflag, hown (hnoted hflag), Url.Same]
    · rw [or_iff_right hflag, hw', nodeUrl_of_unflagged (by rwa [hmask] at hflag)]
  -- The record has just been put, so what follows concerns a cached resource.
  have hcached : (w'.state.cache.get? f.resource).isSome := by
    have hne : f.resource.segments ≠ [] := by
      intro hnil
      rw [Resource.project?, hplace.names_eq, hnil] at hproject
      cases hproject
    rw [hw', Lookup.described, Lookup.cache_registered, Cache.get?_put, if_pos]
    · rfl
    · exact ⟨Lookup.resource_committed _ _, by rw [hplace.parent?_eq hne]; rfl⟩
  refine ⟨hflagged, fun hflag s hs => ?_, hagrees, ?_⟩
  · rw [hderived]
    exact (hs.get?_switched hcached (hnoted hflag)).2.imp_left fun hkept => by rw [hown hkept]
  · intro hself habove hdesired htarget hroot after hafter
    rw [hagrees { after with storage := { after.storage with state := w.state } } after rfl hafter,
      agrees_iff hproject hbinding hinside, hflagged,
      nodeUrl_eq_urlOf hplace hself habove hdesired htarget hroot]
    simp only [not_or, not_not, and_assoc]

/-- A node that is reported strictly below the expected URL has another repository node. -/
theorem commit_nodeUrl_gap :
    let nodes : List (Disk.Place × Disk.Node) := [(["wc", "a"], .dir 0)]
    let env := Checkout.env nodes {}
    let e := Checkout.lookupEnv nodes {}
    let r := Resource.folder "/p/a"
    let entry := Checkout.folder "wc/a" "http://h/r/trunk/a/b"
    let batch : Lookup.Batch :=
      { resource := r
        target := r
        entries := [entry]
        desiredUrl := "http://h/r/trunk/a"
        root := ⟨"wc"⟩
        requested := ⟨"wc/a"⟩ }
    let f : Lookup.Finding := { entry := entry, kind := .dir, isSymlink := false, resource := r }
    let start := Checkout.start
    let w : Lookup.World := { state := start.storage.state }
    let run := (Lookup.commit e batch f (w.state.cache.nearestAbove? f.resource) false).run w
    let after : Session := { storage := { start.storage with state := run.2.state } }
    ¬Agrees env after f.resource (Url.decode "http://h/r/trunk/a/b") := by
  intro nodes env e r entry batch f start w run after
  have hok : ∀ x : Except Error (Option Record) × Lookup.World, x.1.toOption.join.isSome →
      ∃ record, x = (.ok (some record), x.2) := by
    rintro ⟨_ | _ | record, w'⟩ h
    · cases h
    · cases h
    · exact ⟨record, rfl⟩
  obtain ⟨record, hrun⟩ := hok run (by decide +kernel)
  replace hrun : (Lookup.commit e batch f (w.state.cache.nearestAbove? f.resource) false).run w =
      (.ok (some record), run.2) := hrun
  clear_value run
  have hplace : f.resource.Proper := Resource.proper_ofPath "/p/a" .folder (.inl rfl)
  have hproject : f.resource.project? = some Checkout.project := by decide +kernel
  have hinside : f.resource ≠ Checkout.project := by decide +kernel
  have hbinding : env.host.binding? Checkout.project = some ⟨⟨"wc"⟩, Checkout.trunk⟩ := rfl
  have hurl : f.entry.url = some "http://h/r/trunk/a/b" := rfl
  have hexact := (commit_nodeUrl hrun hurl hplace hproject hinside hbinding).2.2.2
    (by decide +kernel) (by decide +kernel) (by decide +kernel) (Resource.self_mem_lineage r)
    (by decide +kernel) after rfl
  refine hexact.2 ⟨by decide +kernel, by decide +kernel, by decide +kernel, ?_⟩
  unfold Url.Same
  decide +kernel

end Storage
end StatusCache
