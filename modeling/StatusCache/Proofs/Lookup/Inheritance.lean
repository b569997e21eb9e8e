/-
# Flags handed down by an answer

What lies below an opaque node is ignored and forbidden, and what lies in a copied container is
copied. A batch decides this for each node when the turn comes to it, by the record of the nearest
container above as it is then (`Made`). The entries come parents first, so nothing comes in between
later, and what is above a node at its turn is what is above it in the end (`MadeAt.nearestAbove?_eq`).
So one pass is enough (`fill_inherits`).

One exception is the requested resource, if it goes by the name `.`: then its place is that of the
container above it, and an entry that comes later may be about that container
(`not_fill_inherits_dot`). Others are resources that are linked, which lookups do not load
(`not_fill_inherits_linked`), and names that are no texts: two of them may read alike, and then what
lies in one directory is taken for what lies in another one (`not_fill_inherits_alike`). Where
different names read differently (`Batch.Legible`), as texts do, that does not happen.
-/

import StatusCache.Proofs.Lookup.Made

namespace StatusCache
namespace Lookup

variable {env : Env} {batch : Batch} {project k r parent : Resource} {binding : Binding}
  {depth : Depth} {e e' source : Entry} {f : Finding} {u w : World} {record : Record}
  {above : Option Record} {before rest : List Entry} {c c' : Cache}

/-! ### What is above stays above -/

/-- What is not about a container above a resource leaves the nearest record above it. -/
theorem Adds.nearestAbove?_eq (h : Adds f c c') (hnot : f.resource ∉ k.ancestors) :
    c'.nearestAbove? k = c.nearestAbove? k := by
  rcases h with rfl | ⟨added, rfl, hresource, -, -⟩
  · rfl
  · rcases Cache.nearestAbove?_put_cases c added k with hsame | ⟨-, habove, -⟩
    · exact hsame
    · exact absurd (hresource ▸ habove) hnot

namespace Batch.Loaded

/-- No later entry is about a container above what an earlier one is about, unless that is the
requested resource under the name `.`. -/
theorem not_mem_ancestors (h : batch.Loaded env project) (hwf : batch.resource.WellFormed)
    (he : e ∈ batch.entries) (he' : e' ∈ batch.entries)
    (hle : (compare e.path e'.path).isLE)
    (hname : (batch.finding env project e).resource = batch.resource → batch.resource.name ≠ ".") :
    (batch.finding env project e').resource ∉ (batch.finding env project e).resource.ancestors := by
  intro habove
  have hrequests := h.requests_of_mem_ancestors he he' hle habove
  obtain ⟨_, -, -, hresource⟩ := h.cases_finding e
  rw [if_pos hrequests] at hresource
  have hlast := h.last_of_mem_ancestors he he' hle habove (hresource ▸ hwf)
  refine hname hresource ?_
  rw [hresource, hwf.names_eq] at hlast
  rw [Resource.name, List.getLastD_eq_getLast?]
  cases hsegments : batch.resource.segments with
  | nil => simp [hsegments] at hlast
  | cons first others =>
    rw [hsegments, List.drop_one, List.tail_cons] at hlast
    rw [List.getLast?_cons, hlast]
    rfl

end Batch.Loaded

/-- **What is above a node at its turn is what is above it in the end.** -/
theorem MadeAt.nearestAbove?_eq (h : MadeAt env batch project w k before e rest u)
    (hloaded : batch.Loaded env project) (hwf : batch.resource.WellFormed)
    (hname : k = batch.resource → batch.resource.name ≠ ".") :
    ((fill env batch).run w).2.state.cache.nearestAbove? k = u.state.cache.nearestAbove? k := by
  obtain ⟨hresource, -⟩ := h.made hloaded.project?
  obtain ⟨p, hstate, -⟩ := h.state_fill hloaded.project?
  rw [hstate]
  refine fillEntries_induction (Q := fun c => c.nearestAbove? k = u.state.cache.nearestAbove? k)
    (fun e' he' c c' hadds hc => (hadds.nearestAbove?_eq ?_).trans hc) p rfl
  rcases List.mem_cons.1 he' with rfl | he'
  · rw [hresource]
    exact Resource.not_mem_ancestors_self k
  · have hmem : e ∈ batch.entries := by rw [h.split]; simp
    have hmem' : e' ∈ batch.entries := by rw [h.split]; simp [he']
    have harranged := hloaded.arranged
    rw [h.split, List.pairwise_append, List.pairwise_cons] at harranged
    have hnot := hloaded.not_mem_ancestors hwf hmem hmem' (harranged.2.1.1 e' he')
      (by rwa [hresource])
    rwa [hresource] at hnot

/-! ### Flags -/

/-- **Flags are handed down in one pass.** A record that working through the answer of a load adds is,
in view of the record of the nearest container above as it is in the end, ignored and forbidden if
that is opaque. Otherwise it stands for an external that does not answer or for a new directory that
mounts a working copy further down, or it is copied if and only if the entry that it is made from is
or the container above is. The requested resource is an exception if its name is `.`, and so are
batches in which two different names read alike. -/
theorem fill_inherits (hplain : ∀ s ∈ r.segments, '/' ∉ s.toList) (hwf : r.WellFormed)
    (hparent : r.parent? = some parent) (hproject : r.project? = some project)
    (hbinding : env.host.binding? project = some binding) (hhost : env.host.Faithful project)
    (hlinked : env.host.isLinked r = false) {start finish : World}
    (hbatch : (askVersioned env r parent binding depth).run start = (.ok (some batch), finish))
    (hbelow : ∀ e ∈ batch.entries, e.path.DescendsByBytes batch.root) (hlegible : batch.Legible)
    (w : World) :
    let w' := ((fill env batch).run w).2
    ∀ k record, w.state.cache.get? k = none → w'.state.cache.get? k = some record →
      (k = r → r.name ≠ ".") →
      let above := w'.state.cache.nearestAbove? k
      (above.any (·.mask.isOpaque) → record = .bare k .ignored { forbidden := true }) ∧
      (¬above.any (·.mask.isOpaque) →
        ∃ before e rest u, MadeAt env batch project w k before e rest u ∧
          ((env.source? u.calls e = none ∨ env.nestsMetadata k ∧
              ∃ source, env.source? u.calls e = some source ∧ reportedText source = .new) ∧
            record = .bare k .ignored { external := true } ∨
          ∃ source, env.source? u.calls e = some source ∧
            (record.mask.copied ↔ source.copied ∨ above.any (·.mask.copied)))) := by
  intro w' k record hnone hsome hname above
  obtain ⟨rfl, hloaded⟩ := loaded_of_askVersioned hplain hparent hproject hbinding hhost hlinked
    hbatch hbelow hlegible
  -- The record was made at the turn of one entry, in a state that already had the container above.
  obtain ⟨before, e, rest, u, hturn⟩ := exists_madeAt hproject hnone (by rw [hsome]; rfl)
  have habove : above = u.state.cache.nearestAbove? k := hturn.nearestAbove?_eq hloaded hwf hname
  obtain ⟨hresource, record', hget, hmade⟩ := hturn.made hproject
  obtain rfl : record' = record := Option.some.inj (hget.symm.trans hsome)
  rw [← habove] at hmade
  subst hresource
  clear_value above
  generalize hsource : env.source? u.calls e = source at hmade
  -- One case for each way in which a record is made.
  cases hmade with
  | forbidden hopaque => exact ⟨fun _ => rfl, fun hopen => absurd hopaque hopen⟩
  | unreachable hopen habsent =>
    exact ⟨fun hopaque => absurd hopaque hopen, fun _ =>
      ⟨before, e, rest, u, hturn, .inl ⟨.inl (hsource.trans habsent), rfl⟩⟩⟩
  | mounted hopen hfound hmounts =>
    exact ⟨fun hopaque => absurd hopaque hopen, fun _ => ⟨before, e, rest, u, hturn,
      .inl ⟨.inr ⟨hmounts.2.2, _, hsource.trans hfound, hmounts.1⟩, rfl⟩⟩⟩
  | described hopen hfound isExternal =>
    refine ⟨fun hopaque => absurd hopaque hopen, fun _ =>
      ⟨before, e, rest, u, hturn, .inr ⟨_, hsource.trans hfound, ?_⟩⟩⟩
    rw [mask_committed]
    simp [recordOf, maskOf, or_comm]

/-- A copied folder: the file in it is copied as well, though the backend does not say so. -/
theorem fill_inherits_copied :
    let first : Entry := { path := ⟨"wc"⟩, kind := .dir, text := .normal, copied := true }
    let file : Entry := { path := ⟨"wc/f"⟩, kind := .file, text := .normal }
    let env := Checkout.lookupEnv [(["wc", "f"], .file [] 0)] { status := [("wc", .ok [first, file])] }
    let batch := Checkout.batch [first, file]
    let w' := ((fill env batch).run Checkout.world).2
    let k := Resource.file "/p/f"
    ∃ record, w'.state.cache.get? k = some record ∧ record.mask.copied ∧
      ∃ before e rest u, MadeAt env batch Checkout.project Checkout.world k before e rest u ∧
        ∃ source, env.source? u.calls e = some source ∧
          (record.mask.copied ↔ source.copied ∨
            (w'.state.cache.nearestAbove? k).any (·.mask.copied)) := by
  intro first file env batch w' k
  have hbelow : ∀ e ∈ batch.entries, e.path.Descends batch.root := by
    intro e he
    rcases List.mem_cons.1 he with rfl | he
    · exact ⟨[], by decide, by simp⟩
    · obtain rfl := List.mem_singleton.1 he
      exact ⟨["f"], by decide, by decide⟩
  obtain ⟨finish, hbatch⟩ : ∃ finish, (askVersioned env Checkout.project .root
      ⟨⟨"wc"⟩, Checkout.trunk⟩ .one).run Checkout.world = (.ok (some batch), finish) :=
    ⟨_, run_askVersioned_checkout rfl (by decide +kernel)⟩
  have hsome : (w'.state.cache.get? k).isSome := by decide +kernel
  have hcopied : (w'.state.cache.get? k).any (·.mask.copied) := by decide +kernel
  have hopen : ¬(w'.state.cache.nearestAbove? k).any (·.mask.isOpaque) := by decide +kernel
  have hstate : ((fill env batch).run Checkout.world).2 = w' := rfl
  have hinherits := fill_inherits (by decide) ⟨by decide, rfl⟩ (by decide) (by decide) rfl
    (Checkout.faithful _) (by decide) hbatch (fun e he => (hbelow e he).byBytes)
    (Batch.legible_of_descends hbelow) Checkout.world
  clear_value w'
  rw [hstate] at hinherits
  obtain ⟨record, hget⟩ := Option.isSome_iff_exists.1 hsome
  rw [hget] at hcopied
  obtain ⟨before, e, rest, u, hturn, ⟨-, hbare⟩ | hcopy⟩ :=
    (hinherits k record (by decide) hget (fun _ => by decide)).2 hopen
  · rw [hbare] at hcopied
    cases hcopied
  · exact ⟨record, hget, hcopied, before, e, rest, u, hturn, hcopy⟩

/-- What is seen of the masks of a new record and of the one above it, in terms of the records. -/
theorem exists_of_masks {m m' : Mask} (hnone : c.get? k = none)
    (hmask : (c'.get? k).map (·.mask) = some m)
    (hmask' : (c'.nearestAbove? k).map (·.mask) = some m') :
    ∃ record above, c.get? k = none ∧ c'.get? k = some record ∧ c'.nearestAbove? k = some above ∧
      above.mask = m' ∧ record.mask = m := by
  obtain ⟨record, hget, hrecord⟩ := Option.map_eq_some_iff.1 hmask
  obtain ⟨above, hfound, habove⟩ := Option.map_eq_some_iff.1 hmask'
  exact ⟨record, above, hnone, hget, hfound, habove, hrecord⟩

/-- **The name `.` is an exception.** The requested resource goes by it, so that its place is that of
the container above. Of two entries there the first is about the resource and the second, which is
copied, about the container: in the end that is copied and the resource is not. -/
theorem not_fill_inherits_dot :
    let first : Entry := { path := ⟨"wc/a"⟩, kind := .dir, text := .normal }
    let second : Entry := { path := ⟨"wc/a"⟩, kind := .file, text := .normal, copied := true }
    let env := Checkout.lookupEnv [(["wc", "a"], .dir 0)]
      { status := [("wc/a/.", .ok [first, second])] }
    let r := Resource.folder "/p/a/."
    let batch : Batch :=
      { resource := r
        target := r
        entries := [first, second]
        desiredUrl := Url.append Checkout.trunk.url r.projectPath
        root := ⟨"wc"⟩
        requested := ⟨"wc/a/."⟩ }
    let w := Checkout.world
    let w' := ((fill env batch).run w).2
    (∃ finish, (askVersioned env r (Resource.folder "/p/a") ⟨⟨"wc"⟩, Checkout.trunk⟩ .one).run w =
        (.ok (some batch), finish)) ∧
      (∀ e ∈ batch.entries, e.path.Descends batch.root) ∧
      ∃ record above, w.state.cache.get? r = none ∧ w'.state.cache.get? r = some record ∧
        w'.state.cache.nearestAbove? r = some above ∧ above.mask = { copied := true } ∧
        record.mask = {} := by
  intro first second env r batch w w'
  have hplace : env.host.location? r = some ⟨"wc/a/."⟩ := by decide +kernel
  refine ⟨⟨_, run_askVersioned_fixed rfl rfl hplace (by decide +kernel) (by decide +kernel)
    (by decide +kernel)⟩, fun e he => ?_, ?_⟩
  · rcases List.mem_cons.1 he with rfl | he
    · exact ⟨["a"], by decide, by decide⟩
    · obtain rfl := List.mem_singleton.1 he
      exact ⟨["a"], by decide, by decide⟩
  · exact exists_of_masks (by decide) (by decide +kernel) (by decide +kernel)

/-- **Linked resources are an exception**, which lookups do not load. The place of a linked folder is
another one than its name says, and the entry about it comes after one that is about a file in it: in
the end the folder is copied and the file is not. -/
theorem not_fill_inherits_linked :
    let file : Entry := { path := ⟨"wc/a/n"⟩, kind := .file, text := .normal }
    let copied : Entry := { path := ⟨"wc/z"⟩, kind := .dir, text := .normal, copied := true }
    let env := Checkout.linkedEnv [(["wc", "z"], .dir 0)]
      { status := [("wc/z", .ok [file, copied])] }
    let batch := Checkout.linkedBatch [file, copied]
    let w := Checkout.world
    let w' := ((fill env batch).run w).2
    let k := Resource.file "/p/a/n"
    (∃ finish, (askVersioned env Checkout.linked Checkout.project ⟨⟨"wc"⟩, Checkout.trunk⟩ .one).run w =
        (.ok (some batch), finish)) ∧
      (∀ e ∈ batch.entries, e.path.Descends batch.root) ∧
      ∃ record above, w.state.cache.get? k = none ∧ w'.state.cache.get? k = some record ∧
        w'.state.cache.nearestAbove? k = some above ∧ above.mask = { copied := true } ∧
        record.mask = {} := by
  intro file copied env batch w w' k
  refine ⟨⟨_, run_askVersioned_linked rfl (by decide +kernel)⟩, fun e he => ?_, ?_⟩
  · rcases List.mem_cons.1 he with rfl | he
    · exact ⟨["a", "n"], by decide, by decide⟩
    · obtain rfl := List.mem_singleton.1 he
      exact ⟨["z"], by decide, by decide⟩
  · exact exists_of_masks (by decide) (by decide +kernel) (by decide +kernel)

/-- **Names that are no texts are an exception.** The names of two directories in the working copy read
alike, though they are not the same. The file in the first one is recorded before the second one,
which is copied and then taken for its container: in the end that is copied and the file is not. -/
theorem not_fill_inherits_alike :
    let file : Entry :=
      { path := ⟨"wc/" ++ ⟨[0x80]⟩ ++ "/y"⟩, kind := .file, text := .normal }
    let copied : Entry :=
      { path := ⟨"wc/" ++ ⟨[0xFF]⟩⟩, kind := .dir, text := .normal, copied := true }
    let entries := [Checkout.root, file, copied]
    let env := Checkout.lookupEnv
      [(["wc", ⟨[0x80]⟩], .dir 0), (["wc", ⟨[0x80]⟩, "y"], .file [] 0), (["wc", ⟨[0xFF]⟩], .dir 0)]
      { status := [("wc", .ok entries)] }
    let batch := Checkout.batch entries
    let w := Checkout.world
    let w' := ((fill env batch).run w).2
    let k := Resource.file "/p/\uFFFD/y"
    (∃ finish, (askVersioned env Checkout.project .root ⟨⟨"wc"⟩, Checkout.trunk⟩ .one).run w =
        (.ok (some batch), finish)) ∧
      (∀ e ∈ batch.entries, e.path.DescendsByBytes batch.root) ∧
      ∃ record above, w.state.cache.get? k = none ∧ w'.state.cache.get? k = some record ∧
        w'.state.cache.nearestAbove? k = some above ∧ above.mask = { copied := true } ∧
        record.mask = {} := by
  intro file copied entries env batch w w' k
  refine ⟨⟨_, run_askVersioned_checkout rfl (by decide +kernel)⟩, fun e he => ?_, ?_⟩
  · rcases List.mem_cons.1 he with rfl | he
    · exact ⟨[], by decide, by simp⟩
    rcases List.mem_cons.1 he with rfl | he
    · exact ⟨[⟨[0x80]⟩, "y"], by decide +kernel, by decide⟩
    · obtain rfl := List.mem_singleton.1 he
      exact ⟨[⟨[0xFF]⟩], by decide +kernel, by decide⟩
  · exact exists_of_masks (by decide) (by decide +kernel) (by decide +kernel)

end Lookup
end StatusCache
