/-
# The footprint of a scan

A scan visits nodes one after the other, and what it leaves out with all that it holds depends on
the host and the disk alone. So the nodes can be listed beforehand (`Env.footprint`), and a scan
registers them in this order (`visit_eq_foldlM`): each reads the records of those before it, but
none decides where the scan goes (`Sweep`).

In a finite tree the list holds the nodes that can be reached through nodes that are not passed over
(`mem_footprint`), each once and after its parent. So a scan commits one record for each of them, and
leaves every other record as it was (`scanUnversioned_footprint`).
-/

import StatusCache.Proofs.Checkout
import StatusCache.Proofs.Lookup.Scan
import StatusCache.Proofs.Tree

namespace StatusCache

/-- The distances from a resource that a depth allows. -/
def Depth.Allows : Depth → Nat → Prop
  | zero, n => n = 0
  | one, n => n ≤ 1
  | infinite, _ => True

namespace Lookup

variable {env : Env} {origin r c m node : Resource} {isLinked : Bool} {scan : Scan}
  {w x : World} {levels n : Nat} {record : Record} {records : List Record}

/-! ### The nodes of a scan -/

/-- The nodes that a scan registers from one on, so many levels down, in their order. -/
def Env.footprint (env : Env) : Nat → Resource → List Resource
  | levels, node =>
    if env.passesOver node then []
    else
      match levels with
      | 0 => [node]
      | levels + 1 =>
        if node.isContainer then node :: (env.host.members node).flatMap (env.footprint levels)
        else [node]

/-- So many levels below a resource stands a node, and none on the way, the resource and the node
included, is passed over. -/
abbrev Env.Reaches (env : Env) : Nat → Resource → Resource → Prop :=
  env.host.Leads fun node => ¬env.passesOver node

/-- What a scan reaches, members lead to. -/
theorem Env.Reaches.leads (h : env.Reaches n r node) : env.host.Leads (fun _ => True) n r node :=
  h.mono fun _ _ => trivial

/-- **The footprint holds what can be reached.** -/
theorem mem_footprint : node ∈ env.footprint levels r ↔ ∃ n ≤ levels, env.Reaches n r node := by
  -- A node is reached by one level more than the member of `r` that is on the way to it.
  induction levels generalizing r with
  | zero =>
    rw [Env.footprint]
    constructor
    · intro h
      split at h
      · cases h
      next hpass =>
        obtain rfl := List.mem_singleton.1 h
        exact ⟨0, le_rfl, .self hpass⟩
    · rintro ⟨n, hn, h⟩
      cases h with
      | self hpass => rw [if_neg hpass]; exact List.mem_singleton_self node
      | member => omega
  | succ levels ih =>
    rw [Env.footprint]
    constructor
    · intro h
      split at h
      · cases h
      next hpass =>
        split at h
        next hcontainer =>
          rcases List.mem_cons.1 h with rfl | h
          · exact ⟨0, Nat.zero_le _, .self hpass⟩
          · obtain ⟨m, hm, h⟩ := List.mem_flatMap.1 h
            obtain ⟨n, hn, h⟩ := ih.1 h
            exact ⟨n + 1, by omega, .member hpass hcontainer hm h⟩
        · obtain rfl := List.mem_singleton.1 h
          exact ⟨0, Nat.zero_le _, .self hpass⟩
    · rintro ⟨n, hn, h⟩
      cases h with
      | self hpass =>
        rw [if_neg hpass]
        split <;> simp
      | member hpass hcontainer hm h =>
        rw [if_neg hpass]
        rw [if_pos hcontainer]
        exact List.mem_cons_of_mem _ (List.mem_flatMap.2 ⟨_, hm, ih.2 ⟨_, by omega, h⟩⟩)

/-- No node comes before one that is above it, or twice. -/
theorem pairwise_footprint (ht : env.host.TreeBelow r) (levels : Nat) :
    (env.footprint levels r).Pairwise fun a b => b ∉ a.lineage := by
  have hbelow : ∀ {levels m a}, env.host.TreeBelow m → a ∈ env.footprint levels m →
      m ∈ a.lineage := fun hm ha => by
    obtain ⟨_, -, h⟩ := mem_footprint.1 ha
    exact h.leads.mem_lineage hm
  induction levels generalizing r with
  | zero => rw [Env.footprint]; split <;> simp
  | succ levels ih =>
    rw [Env.footprint]
    split
    · exact .nil
    split
    next hcontainer =>
      refine List.pairwise_cons.2 ⟨fun b hb hba => ?_, List.pairwise_flatMap.2
        ⟨fun m hm => ih (ht.of_member hcontainer hm), ?_⟩⟩
      · obtain ⟨m, hm, hb⟩ := List.mem_flatMap.1 hb
        have hmb := hbelow (ht.of_member hcontainer hm) hb
        exact parent?_ne_of_mem_lineage (Resource.mem_lineage_trans hmb hba)
          (ht.parent? hcontainer hm)
      · refine (ht.nodup hcontainer).pairwise_of_forall_ne fun m hm m' hm' hne a ha b hb hba => hne ?_
        -- Both members stand on the way up from the one node, at the same height.
        have hma := hbelow (ht.of_member hcontainer hm) ha
        have hma' := Resource.mem_lineage_trans (hbelow (ht.of_member hcontainer hm') hb) hba
        refine Resource.eq_of_mem_lineage hma hma' ?_
        rw [Resource.length_ancestors_of_parent? (ht.parent? hcontainer hm),
          Resource.length_ancestors_of_parent? (ht.parent? hcontainer hm')]
    · exact List.pairwise_singleton _ _

/-- In a tree the footprint of a scan holds no node twice. -/
theorem nodup_footprint (ht : env.host.TreeBelow r) (levels : Nat) :
    (env.footprint levels r).Nodup := by
  refine (pairwise_footprint ht levels).imp fun {a b} hnot heq => hnot ?_
  rw [← heq]
  exact a.self_mem_lineage

/-- The parent of a node that can be reached can be reached too, unless the way begins with the
node. -/
theorem Env.Reaches.parent (h : env.Reaches n r node) (ht : env.host.TreeBelow r) :
    n = 0 ∧ node = r ∨ ∃ p k, node.parent? = some p ∧ n = k + 1 ∧ env.Reaches k r p := by
  induction h with
  | self _ => exact .inl ⟨rfl, rfl⟩
  | member hpass hcontainer hm _ ih =>
    right
    rcases ih (ht.of_member hcontainer hm) with ⟨rfl, rfl⟩ | ⟨p, k, hp, rfl, hreach⟩
    · exact ⟨_, 0, ht.parent? hcontainer hm, rfl, .self hpass⟩
    · exact ⟨p, k + 1, hp, rfl, .member hpass hcontainer hm hreach⟩

/-- How an element of an ordered list stands to those before it and after it. -/
theorem pairwise_around {α : Type} {R : α → α → Prop} {x : α} {before after : List α}
    (h : (before ++ x :: after).Pairwise R) : (∀ a ∈ before, R a x) ∧ ∀ b ∈ after, R x b := by
  obtain ⟨-, hrest, hacross⟩ := List.pairwise_append.1 h
  exact ⟨fun a ha => hacross a ha x List.mem_cons_self, (List.pairwise_cons.1 hrest).1⟩

/-- Every node but the first comes after its parent. -/
theorem parent_before (ht : env.host.TreeBelow r) {before after : List Resource}
    (h : env.footprint levels r = before ++ node :: after) :
    node = r ∨ ∃ p ∈ before, node.parent? = some p := by
  have hnode : node ∈ env.footprint levels r := by rw [h]; simp
  obtain ⟨n, hn, hreach⟩ := mem_footprint.1 hnode
  refine (hreach.parent ht).imp And.right fun ⟨p, k, hp, hk, hreach⟩ => ⟨p, ?_, hp⟩
  have hmem : p ∈ env.footprint levels r := mem_footprint.2 ⟨k, by omega, hreach⟩
  have horder := pairwise_footprint ht levels
  rw [h] at horder hmem
  have habove : p ∈ node.lineage := List.mem_cons_of_mem _ (Resource.parent?_mem_ancestors hp)
  rcases List.mem_append.1 hmem with hbefore | hrest
  · exact hbefore
  · rcases List.mem_cons.1 hrest with rfl | hafter
    · exact absurd hp (parent?_ne_of_mem_lineage (Resource.self_mem_lineage _))
    · exact absurd habove ((pairwise_around horder).2 p hafter)

/-- More levels than a tree has make no difference. -/
theorem footprint_eq_of_le {height : Nat}
    (hbound : ∀ n c, env.host.Leads (fun _ => True) n r c → n ≤ height) (hle : height ≤ levels) :
    env.footprint levels r = env.footprint height r := by
  induction height generalizing r levels with
  | zero =>
    cases levels with
    | zero => rfl
    | succ levels =>
      have hempty : r.isContainer → env.host.members r = [] := fun hcontainer => by
        refine List.eq_nil_iff_forall_not_mem.2 fun m hm => ?_
        have := hbound 1 m (.member trivial hcontainer hm (.self trivial))
        omega
      rw [Env.footprint, Env.footprint]
      split
      · rfl
      split
      next hcontainer => rw [hempty hcontainer, List.flatMap_nil]
      · rfl
  | succ height ih =>
    obtain ⟨levels, rfl⟩ : ∃ k, levels = k + 1 := ⟨levels - 1, by omega⟩
    rw [Env.footprint, Env.footprint]
    split
    · rfl
    split
    next hcontainer =>
      refine congrArg (r :: ·) (List.flatMap_congr fun m hm => ih (fun n c hc => ?_) (by omega))
      have := hbound (n + 1) c (.member trivial hcontainer hm hc)
      omega
    · rfl

/-! ### The run over them -/

/-- A fold over lists put together is a fold over each, one after the other. -/
theorem foldlM_flatMap {α β γ : Type} (f : γ → β → Action γ) (g : α → List β) (as : List α)
    (c : γ) : (as.flatMap g).foldlM f c = as.foldlM (fun c a => (g a).foldlM f c) c := by
  induction as generalizing c with
  | nil => rfl
  | cons a as ih =>
    rw [List.flatMap_cons, List.foldlM_append, List.foldlM_cons]
    exact bind_congr fun c => ih c

/-- **A scan registers its footprint**, node by node. -/
theorem visit_eq_foldlM (env : Env) (origin : Resource) (isLinked : Bool) (levels : Nat)
    (node : Resource) (scan : Scan) :
    visit env origin isLinked levels node scan = (env.footprint levels node).foldlM
      (fun scan node => registerUnversioned env origin isLinked node scan) scan := by
  induction levels generalizing node scan with
  | zero =>
    rw [visit, Env.footprint]
    split
    · rfl
    · rw [List.foldlM_cons]
      rfl
  | succ levels ih =>
    rw [visit, Env.footprint]
    split
    · rfl
    simp only
    split
    next hcontainer =>
      rw [List.foldlM_cons, bind_congr fun scan => (foldlM_flatMap _ _ _ scan)]
      exact bind_congr fun scan => congrArg (fun f => (env.host.members node).foldlM f scan)
        (funext fun scan => funext fun m => ih m scan)
    · rw [List.foldlM_cons]
      rfl

/-- Nodes are registered one after the other, each as it is found in the world at its turn. -/
inductive Sweep (env : Env) (origin : Resource) (isLinked : Bool) :
    World → List Record → World → Prop
  | nil (w : World) : Sweep env origin isLinked w [] w
  | cons {w x : World} {node : Resource} {scan : Scan} {records : List Record}
      (hrest : Sweep env origin isLinked
        (registered env (scanned env origin isLinked node scan w) w) records x) :
      Sweep env origin isLinked w
        (env.committed (scanned env origin isLinked node scan w) :: records) x

namespace Sweep

/-- After a sweep its records are cached, in their order. -/
theorem cache (h : Sweep env origin isLinked w records x) :
    x.state.cache = records.foldl Cache.put w.state.cache := by
  induction h with
  | nil _ => rfl
  | cons _ ih => rw [ih, cache_registered, List.foldl_cons]

/-- A sweep makes no request. -/
theorem calls (h : Sweep env origin isLinked w records x) : x.calls = w.calls := by
  induction h with
  | nil _ => rfl
  | cons _ ih => exact ih

/-- The commits are traced, the last one first. -/
theorem commits (h : Sweep env origin isLinked w records x) :
    x.commits = (records.map (Commit.mk · w.calls.length)).reverse ++ w.commits := by
  induction h with
  | nil _ => rfl
  | cons _ ih =>
    rw [ih, List.map_cons, List.reverse_cons, List.append_assoc]
    rfl

/-- What comes between the records of two nodes. -/
theorem split {before after : List Record}
    (h : Sweep env origin isLinked w (before ++ record :: after) x) :
    ∃ u scan, Sweep env origin isLinked w before u ∧
      record = env.committed (scanned env origin isLinked record.resource scan u) := by
  induction before generalizing w with
  | nil =>
    cases h with
    | @cons _ _ node scan _ _ =>
      refine ⟨w, scan, .nil w, ?_⟩
      rw [resource_committed]
      rfl
  | cons first before ih =>
    cases h with
    | cons hrest =>
      obtain ⟨u, scan, hbefore, hrecord⟩ := ih hrest
      exact ⟨u, scan, .cons hbefore, hrecord⟩

end Sweep

/-- The run over a list of nodes. -/
theorem run_foldlM_registerUnversioned (env : Env) (origin : Resource) (isLinked : Bool)
    (nodes : List Resource) (scan : Scan) (w : World) :
    ∃ scan' records x, (nodes.foldlM
        (fun scan node => registerUnversioned env origin isLinked node scan) scan).run w =
          (.ok scan', x) ∧
      Sweep env origin isLinked w records x ∧ records.map Record.resource = nodes ∧
      scan'.first = (scan.first <|> records.head?) := by
  induction nodes generalizing scan w with
  | nil => exact ⟨scan, [], w, rfl, .nil w, rfl, by cases scan.first <;> rfl⟩
  | cons node nodes ih =>
    obtain ⟨scan', hfirst, hrun⟩ := run_registerUnversioned env origin isLinked node scan w
    obtain ⟨scan'', records, x, hrest, hsweep, hnodes, hfirst'⟩ := ih scan' _
    refine ⟨scan'', _, x, by rw [List.foldlM_cons, run_bind_ok hrun, hrest], .cons hsweep, ?_, ?_⟩
    · rw [List.map_cons, hnodes, resource_committed]
      rfl
    · rw [hfirst', hfirst]
      cases scan.first <;> rfl

/-! ### What is left of it in the cache -/

/-- Writing other records keeps what is cached. -/
theorem get?_foldl_put_of_not_mem {k : Resource} (h : k ∉ records.map Record.resource)
    (cache : Cache) : (records.foldl Cache.put cache).get? k = cache.get? k := by
  induction records generalizing cache with
  | nil => rfl
  | cons record records ih =>
    rw [List.map_cons, List.mem_cons, not_or] at h
    rw [List.foldl_cons, ih h.2, Cache.get?_put, if_neg fun hput => h.1 hput.1.symm]

/-- Of records of different resources each one is kept. -/
theorem get?_foldl_put (hnodup : (records.map Record.resource).Nodup) (hrecord : record ∈ records)
    (hparent : record.resource.parent?.isSome) (cache : Cache) :
    (records.foldl Cache.put cache).get? record.resource = some record := by
  induction records generalizing cache with
  | nil => cases hrecord
  | cons first records ih =>
    obtain ⟨hfirst, hnodup⟩ := List.nodup_cons.1 hnodup
    rw [List.foldl_cons]
    rcases List.mem_cons.1 hrecord with rfl | hrecord
    · rw [get?_foldl_put_of_not_mem hfirst, Cache.get?_put, if_pos ⟨rfl, hparent⟩]
    · exact ih hnodup hrecord _

/-! ### Scans -/

/-- What a scan of a resource does to the world, given the records that it commits in their order. -/
structure Covered (env : Env) (r : Resource) (depth : Depth) (w : World) (records : List Record)
    (answer : Record) (x : World) : Prop where
  nodes : ∀ node, node ∈ records.map Record.resource ↔ ∃ n, depth.Allows n ∧ env.Reaches n r node
  once : (records.map Record.resource).Nodup
  /-- A node comes after its parent. -/
  ordered : ∀ before record after, records = before ++ record :: after →
    record.resource = r ∨ ∃ above ∈ before, record.resource.parent? = some above.resource
  commits : x.commits = (records.map (Commit.mk · w.calls.length)).reverse ++ w.commits
  /-- Nothing is asked of the backend. -/
  calls : x.calls = w.calls
  /-- The root of the workspace is never cached. -/
  cached : ∀ record ∈ records, record.resource.kind ≠ .root →
    x.state.cache.get? record.resource = some record
  others : ∀ k, k ∉ records.map Record.resource → x.state.cache.get? k = w.state.cache.get? k
  answer : if env.passesOver r then answer = Record.invalid r
    else answer ∈ records ∧ answer.resource = r

/-- A scan registers its footprint, and answers with the first record. -/
theorem run_scanUnversioned (env : Env) (r : Resource) (isLinked : Bool) (depth : Depth)
    (w : World) :
    ∃ records x, (scanUnversioned env r isLinked depth).run w =
        (.ok (records.head?.getD (Record.invalid r)), x) ∧
      Sweep env r isLinked w records x ∧
      records.map Record.resource = env.footprint (env.levels depth) r := by
  obtain ⟨scan, records, x, hrun, hsweep, hnodes, hfirst⟩ :=
    run_foldlM_registerUnversioned env r isLinked (env.footprint (env.levels depth) r) {} w
  refine ⟨records, x, ?_, hsweep, hnodes⟩
  rw [scanUnversioned, visit_eq_foldlM, run_bind_ok hrun, hfirst]
  rfl

/-- A scan leaves what registering its footprint leaves. -/
theorem world_scanUnversioned (env : Env) (r : Resource) (isLinked : Bool) (depth : Depth)
    (w : World) :
    ((scanUnversioned env r isLinked depth).run w).2 =
      (((env.footprint (env.levels depth) r).foldlM
        (fun scan node => registerUnversioned env r isLinked node scan) {}).run w).2 := by
  obtain ⟨scan, -, x, hrun, -⟩ :=
    run_foldlM_registerUnversioned env r isLinked (env.footprint (env.levels depth) r) {} w
  rw [scanUnversioned, visit_eq_foldlM, run_bind_ok hrun, hrun]
  rfl

/-- What can be reached within the levels of a depth is what can be reached at the distances that it
allows. -/
theorem mem_footprint_levels (ht : env.host.TreeBelow r) (depth : Depth) :
    node ∈ env.footprint (env.levels depth) r ↔ ∃ n, depth.Allows n ∧ env.Reaches n r node := by
  rw [mem_footprint]
  cases depth with
  | zero => simp [Env.levels, Depth.Allows]
  | one => simp [Env.levels, Depth.Allows]
  | infinite =>
    constructor
    · rintro ⟨n, -, h⟩
      exact ⟨n, trivial, h⟩
    · rintro ⟨n, -, h⟩
      exact ⟨n, ht.bounded n node h.leads, h⟩

/-- The footprint of what is passed over is empty. -/
theorem footprint_of_passesOver (hpass : env.passesOver r) (levels : Nat) :
    env.footprint levels r = [] := by
  cases levels <;> rw [Env.footprint, if_pos hpass]

/-- The footprint begins with the resource itself. -/
theorem head?_footprint (hpass : ¬env.passesOver r) (levels : Nat) :
    (env.footprint levels r).head? = some r := by
  cases levels with
  | zero => rw [Env.footprint, if_neg hpass]; rfl
  | succ levels =>
    rw [Env.footprint, if_neg hpass]
    split <;> rfl

/-- **The footprint of a scan.** Below a resource that is a finite tree, a scan ends, and commits one
record for each node at a distance that the depth allows, unless that or a node on the way to it is
passed over: each node once and after its parent. Every other record is left as it was. The answer
is the record of the resource, which is invalid if itself is passed over. How many levels the walk is
given makes no difference as long as they are no fewer than the tree has. -/
theorem scanUnversioned_footprint (ht : env.host.TreeBelow r) (isLinked : Bool) (depth : Depth)
    (w : World) :
    (∃ records answer x, (scanUnversioned env r isLinked depth).run w = (.ok answer, x) ∧
      Covered env r depth w records answer x) ∧
    ∀ levels ≥ env.host.height,
      visit env r isLinked levels r {} = visit env r isLinked (env.levels .infinite) r {} := by
  constructor
  · obtain ⟨records, x, hrun, hsweep, hnodes⟩ := run_scanUnversioned env r isLinked depth w
    have hnodup : (records.map Record.resource).Nodup := hnodes ▸ nodup_footprint ht _
    refine ⟨records, _, x, hrun, ?_⟩
    constructor
    case nodes => exact fun node => hnodes ▸ mem_footprint_levels ht depth
    case once => exact hnodup
    case ordered =>
      rintro before record after rfl
      rw [List.map_append, List.map_cons] at hnodes
      refine (parent_before ht hnodes.symm).imp_right fun ⟨p, hp, hparent⟩ => ?_
      obtain ⟨above, habove, rfl⟩ := List.mem_map.1 hp
      exact ⟨above, habove, hparent⟩
    case commits => exact hsweep.commits
    case calls => exact hsweep.calls
    case cached =>
      intro record hrecord hroot
      rw [hsweep.cache]
      refine get?_foldl_put hnodup hrecord (Option.isSome_iff_ne_none.2 fun hnone => ?_) _
      exact hroot (Resource.parent?_eq_none.1 hnone)
    case others =>
      intro k hk
      rw [hsweep.cache, get?_foldl_put_of_not_mem hk]
    case answer =>
      split
      next hpass =>
        have hempty : records = [] := by
          rw [footprint_of_passesOver hpass] at hnodes
          exact List.map_eq_nil_iff.1 hnodes
        rw [hempty]
        rfl
      next hpass =>
        have hhead := head?_footprint hpass (env.levels depth)
        rw [← hnodes, List.head?_map, Option.map_eq_some_iff] at hhead
        obtain ⟨answer, hanswer, hresource⟩ := hhead
        rw [hanswer]
        exact ⟨List.mem_of_mem_head? hanswer, hresource⟩
  · intro levels hlevels
    rw [visit_eq_foldlM, visit_eq_foldlM, Env.levels, footprint_eq_of_le ht.bounded hlevels]

/-- A folder with a nested checkout: the folder beside that is scanned with its file, but of the
checkout nothing is cached. -/
theorem scanUnversioned_footprint_nested :
    let nodes : List (Disk.Place × Disk.Node) :=
      [(["wc", "u"], .dir 0), (["wc", "u", "n"], .dir 0), (["wc", "u", "n", ".svn"], .dir 0),
        (["wc", "u", "n", "f"], .file [] 0), (["wc", "u", "a"], .dir 0),
        (["wc", "u", "a", "x"], .file [] 0)]
    let env := Checkout.lookupEnv nodes {}
    let r := Resource.folder "/p/u"
    env.host.TreeBelow r ∧
      ∃ records answer x,
        (scanUnversioned env r false .infinite).run Checkout.world = (.ok answer, x) ∧
        Covered env r .infinite Checkout.world records answer x ∧
        (x.state.cache.get? (.file "/p/u/a/x")).isSome ∧
        x.state.cache.get? (.file "/p/u/n/f") = none := by
  intro nodes env r
  have htree : env.host.TreeBelow r :=
    Checkout.workspace.treeBelow_host (by decide +kernel) (by decide +kernel)
      (by unfold Table.Distinct; decide +kernel)
      (Resource.proper_ofPath "/p/u" .folder (.inl rfl)) (by decide)
  obtain ⟨records, answer, x, hrun, hcovered⟩ :=
    (scanUnversioned_footprint htree false .infinite Checkout.world).1
  have hplace : Checkout.workspace.location? r = some ⟨"wc/u"⟩ := by decide +kernel
  have hbelow : Checkout.workspace.location? (.folder "/p/u/a") = some ⟨"wc/u/a"⟩ := by
    decide +kernel
  have hfolder : Resource.folder "/p/u/a" ∈ env.host.members r :=
    (Workspace.mem_members (by decide) hplace).2
      ⟨"a", by decide +kernel, by decide, by decide +kernel⟩
  have hfile : Resource.file "/p/u/a/x" ∈ env.host.members (.folder "/p/u/a") :=
    (Workspace.mem_members (by decide) hbelow).2
      ⟨"x", by decide +kernel, by decide, by decide +kernel⟩
  have hreach : env.Reaches 2 r (Resource.file "/p/u/a/x") :=
    .member (by decide +kernel) (by decide) hfolder
      (.member (by decide +kernel) (by decide) hfile (.self (by decide +kernel)))
  refine ⟨htree, records, answer, x, hrun, hcovered, ?_, ?_⟩
  · obtain ⟨record, hrecord, hresource⟩ :=
      List.mem_map.1 ((hcovered.nodes _).2 ⟨2, trivial, hreach⟩)
    rw [← hresource, hcovered.cached record hrecord (by rw [hresource]; decide)]
    rfl
  · refine (hcovered.others _ fun hnode => ?_).trans (by decide)
    obtain ⟨n, -, hreach⟩ := (hcovered.nodes _).1 hnode
    rcases hreach.parent htree with ⟨-, heq⟩ | ⟨p, k, hp, -, habove⟩
    · exact absurd heq (by decide)
    · obtain rfl : Resource.folder "/p/u/n" = p :=
        Option.some.inj ((by decide +kernel : _ = some (Resource.folder "/p/u/n")).symm.trans hp)
      exact habove.last (by decide +kernel)

end Lookup
end StatusCache
