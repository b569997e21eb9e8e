/-
# What a scan takes a node to be

On its own merits an unversioned node is linked, or ignored by a rule or as part of what a symlink
leads to, or new, where new gives way to what the nearest container above says (`Env.ownStatus`).
The resource that a scan starts from is registered as that. But to every node below it the scan hands
down the status of the resource it starts from (`Env.handed`), which is asked for again at each node,
when the resource has its record by then. What is handed down stands if it is linked, obstructed or
ignored, and otherwise stands in for new; the rules are not held against the node. So a node has its
own status only where the two agree (`scanUnversioned_given`).

Each node is registered after those above it and before anything below, so what it read at its turn is
what stands above it in the end (`Sweep.agree_above`).
-/

import StatusCache.Proofs.Checkout
import StatusCache.Proofs.Lookup.Footprint

namespace StatusCache
namespace Lookup

variable {env : Env} {origin r node : Resource} {isLinked : Bool} {w x : World}
  {record : Record} {records before after : List Record} {above : Option Record} {status : Status}

/-! ### The statuses of a node -/

/-- The status of an unversioned node by itself, given the record of the nearest container above. -/
def Env.ownStatus (env : Env) (node : Resource) (above : Option Record) : Status :=
  if env.host.isLinked node then .linked
  else if env.host.isIgnored node || above.any (·.mask.symlink) then .ignored
  else inherited above .new

/-- What a scan hands down from the resource it starts from, once that is cached. -/
def Env.handed (env : Env) (r : Resource) (cache : Cache) : Status :=
  unversioned env r (env.host.isLinked r) (cache.get? r) (cache.nearestAbove? r)

/-- What becomes of a status that is handed down to a node, given the record of the nearest container
above. -/
def takenOver (above : Option Record) (status : Status) : Status :=
  if status = .linked ∨ status = .obstructed ∨ status = .ignored then status
  else inherited above status

/-- The status that a scan gives to a node without a record, told by the cache that it leaves. -/
def Env.givenStatus (env : Env) (r node : Resource) (cache : Cache) : Status :=
  let above := cache.nearestAbove? node
  if node = r then
    if above.any (·.mask.symlink) then .ignored
    else unversioned env r (env.host.isLinked r) none above
  else if env.host.isLinked node then .linked
  else if above.any (·.mask.symlink) then .ignored
  else takenOver above (env.handed r cache)

/-- What is not linked takes its status over from above. -/
theorem delegated_eq (hlinked : ¬env.host.isLinked node) :
    delegated env node above status = takenOver above status := by
  unfold delegated takenOver
  by_cases hstatus : status = .linked <;> simp [hlinked, hstatus]

/-- What is found at a node below the one that a scan starts from. -/
theorem scannedText_of_ne (hne : node ≠ origin) :
    scannedText env origin node status above =
      if env.host.isLinked node then .linked
      else if above.any (·.mask.symlink) then .ignored
      else takenOver above status := by
  unfold scannedText
  simp only [hne, if_false]
  by_cases hlinked : env.host.isLinked node
  · simp [delegated, hlinked]
  · rw [delegated_eq hlinked, if_neg hlinked]
    split
    · simp [takenOver]
    · rfl

/-- The resource that a scan starts from has its own status, unless it is linked below a symlink. -/
theorem givenStatus_self (cache : Cache) (hdisk : (env.host.location? r).any env.disk.isOccupied) :
    env.givenStatus r r cache = env.ownStatus r (cache.nearestAbove? r) ↔
      ¬(env.host.isLinked r ∧ (cache.nearestAbove? r).any (·.mask.symlink)) := by
  unfold Env.givenStatus Env.ownStatus unversioned
  simp only [if_true, hdisk, Bool.not_true]
  by_cases hlinked : env.host.isLinked r <;>
    by_cases hsymlink : (cache.nearestAbove? r).any (·.mask.symlink) <;>
    by_cases hignored : env.host.isIgnored r <;> simp [hlinked, hsymlink, hignored]

/-- A node below has its own status if it is linked or below a symlink, or if what it takes over is
what its rules and the containers above make of it. -/
theorem givenStatus_of_ne (hne : node ≠ r) (cache : Cache) :
    env.givenStatus r node cache = env.ownStatus node (cache.nearestAbove? node) ↔
      env.host.isLinked node ∨ (cache.nearestAbove? node).any (·.mask.symlink) ∨
        takenOver (cache.nearestAbove? node) (env.handed r cache) =
          if env.host.isIgnored node then .ignored
          else inherited (cache.nearestAbove? node) .new := by
  unfold Env.givenStatus Env.ownStatus
  by_cases hlinked : env.host.isLinked node <;>
    by_cases hsymlink : (cache.nearestAbove? node).any (·.mask.symlink) <;>
    by_cases hignored : env.host.isIgnored node <;> simp [hne, hlinked, hsymlink, hignored]

/-! ### What stands above a node -/

/-- The record of a node, in the world at its turn and in the one that a sweep leaves. -/
theorem Sweep.split_cache
    (h : Sweep env origin isLinked w (before ++ record :: after) x) :
    ∃ u scan, record = env.committed (scanned env origin isLinked record.resource scan u) ∧
      u.state.cache = before.foldl Cache.put w.state.cache ∧
      x.state.cache = (record :: after).foldl Cache.put u.state.cache := by
  obtain ⟨u, scan, hbefore, hrecord⟩ := h.split
  refine ⟨u, scan, hrecord, hbefore.cache, ?_⟩
  rw [h.cache, hbefore.cache, List.foldl_append]

/-- **What a node read above itself is what stands there in the end.** -/
theorem Sweep.agree_above (h : Sweep env origin isLinked w (before ++ record :: after) x)
    (horder : (before ++ record :: after).Pairwise fun a b => b.resource ∉ a.resource.lineage) :
    ∃ u scan, record = env.committed (scanned env origin isLinked record.resource scan u) ∧
      (before = [] → u.state.cache = w.state.cache) ∧ Agree (· ∈ record.resource.ancestors) u x := by
  obtain ⟨u, scan, hrecord, hu, hx⟩ := h.split_cache
  refine ⟨u, scan, hrecord, fun hnil => by rw [hu, hnil]; rfl, fun a ha => ?_⟩
  rw [hx, get?_foldl_put_of_not_mem fun hmem => ?_]
  obtain ⟨k, hk, rfl⟩ := List.mem_map.1 hmem
  rcases List.mem_cons.1 hk with rfl | hafter
  · exact Resource.not_mem_ancestors_self _ ha
  · exact (pairwise_around horder).2 k hafter (List.mem_cons_of_mem _ ha)

/-- A node at or below the one that a sweep starts from is registered with the status that the cache
in the end tells. -/
theorem Sweep.given (h : Sweep env r (env.host.isLinked r) w (before ++ record :: after) x)
    (horder : (before ++ record :: after).Pairwise fun a b => b.resource ∉ a.resource.lineage)
    (hbelow : ∀ k ∈ before ++ record :: after, r ∈ k.resource.lineage)
    (hfresh : w.state.cache.get? record.resource = none) :
    ∃ mask, record = env.committed
      (.bare record.resource (env.givenStatus r record.resource x.state.cache) mask) := by
  obtain ⟨u, scan, hrecord, hstart, hagree⟩ := h.agree_above horder
  have hnear : u.state.cache.nearestAbove? record.resource =
      x.state.cache.nearestAbove? record.resource := Cache.nearestAbove?_congr hagree
  have hself := hbelow record (by simp)
  refine ⟨(scanned env r (env.host.isLinked r) record.resource scan u).mask, ?_⟩
  have htext : (scanned env r (env.host.isLinked r) record.resource scan u).text =
      env.givenStatus r record.resource x.state.cache := by
    unfold Env.givenStatus
    rw [← hnear]
    by_cases heq : record.resource = r
    · have hnil : before = [] := by
        refine List.eq_nil_iff_forall_not_mem.2 fun k hk => ?_
        have hnot := (pairwise_around horder).1 k hk
        exact hnot (heq ▸ hbelow k (List.mem_append_left _ hk))
      have hknown : u.state.cache.get? r = none := by rw [hstart hnil, ← heq, hfresh]
      simp only [scanned, Record.bare, scannedText, heq, if_true, hknown]
    · have habove : r ∈ record.resource.ancestors :=
        (List.mem_cons.1 hself).resolve_left fun h => heq h.symm
      have hout : u.state.cache.nearestAbove? r = x.state.cache.nearestAbove? r :=
        Cache.nearestAbove?_congr fun a ha => hagree a (Resource.mem_ancestors_trans ha habove)
      simp only [scanned, Record.bare, heq, if_false]
      rw [scannedText_of_ne heq, hagree r habove, hout]
      rfl
  rw [← htext]
  exact hrecord

/-- **What a scan gives to a node, and when that is the node's own status.** A node that is
registered, stands on disk and had no record is registered with the status that is handed down to
it. For the resource that the scan starts from that is its own status, unless it is linked below a
symlink. For a node below it is, if the node is linked or below a symlink, and else only if what it
takes over is ignored where a rule ignores the node, and what new would give way to where none
does. -/
theorem scanUnversioned_given (ht : env.host.TreeBelow r) (depth : Depth) (w : World) :
    ∃ answer x, (scanUnversioned env r (env.host.isLinked r) depth).run w = (.ok answer, x) ∧
      ∀ node n, depth.Allows n → env.Reaches n r node → node.kind ≠ .root →
        (env.host.location? node).any env.disk.isOccupied → w.state.cache.get? node = none →
        let cache := x.state.cache
        let above := cache.nearestAbove? node
        let given := env.givenStatus r node cache
        (∃ mask, cache.get? node = some (env.committed (.bare node given mask))) ∧
        (node = r → (given = env.ownStatus node above ↔
          ¬(env.host.isLinked node ∧ above.any (·.mask.symlink)))) ∧
        (node ≠ r → (given = env.ownStatus node above ↔
          env.host.isLinked node ∨ above.any (·.mask.symlink) ∨
            takenOver above (env.handed r cache) =
              if env.host.isIgnored node then .ignored else inherited above .new)) := by
  obtain ⟨records, x, hrun, hsweep, hnodes⟩ :=
    run_scanUnversioned env r (env.host.isLinked r) depth w
  refine ⟨_, x, hrun, fun node n hallowed hreach hroot hdisk hfresh => ⟨?_, ?_, fun hne => ?_⟩⟩
  · have hmem : node ∈ records.map Record.resource :=
      hnodes ▸ (mem_footprint_levels ht depth).2 ⟨n, hallowed, hreach⟩
    obtain ⟨record, hrecord, rfl⟩ := List.mem_map.1 hmem
    obtain ⟨before, after, rfl⟩ := List.append_of_mem hrecord
    -- Parents come first and nothing comes twice, so the record stays as it was put.
    have horder := List.pairwise_map.1 (hnodes ▸ pairwise_footprint ht (env.levels depth))
    have hnodup := hnodes ▸ nodup_footprint ht (env.levels depth)
    have hbelow : ∀ k ∈ before ++ record :: after, r ∈ k.resource.lineage := fun k hk => by
      have hmem := List.mem_map_of_mem (f := Record.resource) hk
      rw [hnodes] at hmem
      obtain ⟨_, -, h⟩ := mem_footprint.1 hmem
      exact h.leads.mem_lineage ht
    obtain ⟨mask, hmask⟩ := hsweep.given horder hbelow hfresh
    refine ⟨mask, ?_⟩
    rw [← hmask, hsweep.cache]
    refine get?_foldl_put hnodup hrecord (Option.isSome_iff_ne_none.2 fun hnone => ?_) _
    exact hroot (Resource.parent?_eq_none.1 hnone)
  · rintro rfl
    exact givenStatus_self _ hdisk
  · exact givenStatus_of_ne hne _

/-- A folder with a file that a rule ignores. The scan of the folder registers the file as new, like the
folder. -/
theorem scanUnversioned_given_ignored :
    let disk := Checkout.disk [(["wc", "u"], .dir 0), (["wc", "u", "x.o"], .file [] 0)]
    let workspace : Workspace :=
      { Checkout.workspace with ignored := (Glob.parse? "*.o").toList }
    let env : Env :=
      { Checkout.lookupEnv [] {} with host := workspace.host disk, disk := disk }
    let r := Resource.folder "/p/u"
    let object := Resource.file "/p/u/x.o"
    let w := Checkout.world
    ∃ answer x, (scanUnversioned env r (env.host.isLinked r) .one).run w = (.ok answer, x) ∧
      env.givenStatus r object x.state.cache = .new ∧
      env.ownStatus object (x.state.cache.nearestAbove? object) = .ignored ∧
      ∃ mask, x.state.cache.get? object = some (env.committed (.bare object .new mask)) := by
  intro disk workspace env r object w
  have htree : env.host.TreeBelow r :=
    workspace.treeBelow_host (by decide +kernel) (by decide +kernel)
      (by unfold Table.Distinct; decide +kernel)
      (Resource.proper_ofPath "/p/u" .folder (.inl rfl)) (by decide)
  have hplace : workspace.location? r = some ⟨"wc/u"⟩ := by decide +kernel
  have hmember : object ∈ workspace.members disk r :=
    (Workspace.mem_members (by decide) hplace).2
      ⟨"x.o", by decide +kernel, by decide, by decide +kernel⟩
  obtain ⟨answer, x, hrun, hgiven⟩ := scanUnversioned_given htree .one w
  obtain ⟨⟨mask, hmask⟩, -⟩ := hgiven object 1 le_rfl
    (.member (by decide +kernel) (by decide) hmember (.self (by decide +kernel))) (by decide)
    (by decide +kernel) (by decide)
  have hmembers : workspace.members disk r = [object] := by
    have hlisted : (((disk.list? ⟨"wc/u"⟩).getD []).filter (· ≠ Raw.ofText workspace.metadata)).map
        (fun name => if disk.isDir ((⟨"wc/u"⟩ : Path).join name) then r.folderAt name.text
          else r.fileAt name.text) = [object] := by
      decide +kernel
    rw [Workspace.members, if_neg (by decide), hplace]
    simp only [hlisted, Resource.sort, List.mergeSort_singleton]
  have hnodes : env.footprint 1 r = [r, object] := by
    rw [Env.footprint, if_neg (by decide +kernel), if_pos (by decide),
      show env.host.members r = [object] from hmembers, List.flatMap_singleton, Env.footprint,
      if_neg (by decide +kernel)]
  have hcache : x.state.cache = (([r, object].foldlM (fun scan node =>
      registerUnversioned env r (env.host.isLinked r) node scan) {}).run w).2.state.cache := by
    rw [← hnodes, show x = ((scanUnversioned env r (env.host.isLinked r) .one).run w).2 by rw [hrun],
      world_scanUnversioned, show env.levels .one = 1 from rfl]
  have hnew : env.givenStatus r object x.state.cache = .new := by
    rw [hcache]
    decide +kernel
  refine ⟨answer, x, hrun, hnew, ?_, mask, hnew ▸ hmask⟩
  rw [hcache]
  decide +kernel

end Lookup
end StatusCache
