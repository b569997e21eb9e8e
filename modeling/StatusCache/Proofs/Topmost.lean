/-
# The topmost of some resources

A list of resources is shrunk to those that have no other one of the list above them. On places this
is a matter of segments: one place stands above another if its own segments begin those of the other
and there are more of them (`Resource.StandsAbove`), which makes a strict order. So above every place
of the list there is one that nothing stands above, and the subtrees of the topmost ones cover what
the list covers (`topmost_exact`).
-/

import StatusCache.Proofs.Resource

namespace StatusCache

namespace Resource

variable {a b r s : Resource} {rs : List Resource}

/-! ### Standing above -/

/-- A resource stands above another if its segments go on to those of the other. -/
def StandsAbove (a r : Resource) : Prop := ∃ below, below ≠ [] ∧ r.segments = a.segments ++ below

/-- A resource covers itself and what it stands above. -/
def Covers (a r : Resource) : Prop := a = r ∨ a.StandsAbove r

/-- The test for ancestors decides what stands above. -/
theorem WellFormed.isAncestorOf_iff_standsAbove (ha : a.WellFormed) (hr : r.WellFormed) :
    a.isAncestorOf r ↔ a.StandsAbove r := by
  rw [ha.isAncestorOf_iff hr]
  constructor
  · rintro ⟨⟨below, hbelow⟩, hlength⟩
    refine ⟨below, fun hnil => ?_, hbelow.symm⟩
    rw [hnil, List.append_nil] at hbelow
    exact absurd hlength (by rw [hbelow]; exact lt_irrefl _)
  · rintro ⟨below, hne, hbelow⟩
    refine ⟨⟨below, hbelow.symm⟩, ?_⟩
    have := List.length_pos_iff.2 hne
    rw [hbelow, List.length_append]
    omega

/-- What stands above has fewer segments. -/
theorem StandsAbove.length_lt (h : a.StandsAbove r) : a.segments.length < r.segments.length := by
  obtain ⟨below, hne, hbelow⟩ := h
  have := List.length_pos_iff.2 hne
  rw [hbelow, List.length_append]
  omega

/-- What stands above is transitive. -/
theorem StandsAbove.trans (h : a.StandsAbove b) (h' : b.StandsAbove r) : a.StandsAbove r := by
  obtain ⟨below, hne, hbelow⟩ := h
  obtain ⟨more, -, hmore⟩ := h'
  exact ⟨below ++ more, by simp [hne], by rw [hmore, hbelow, List.append_assoc]⟩

/-- What covers a cover covers all. -/
theorem Covers.trans (h : a.Covers b) (h' : b.Covers r) : a.Covers r := by
  rcases h with rfl | h
  · exact h'
  · rcases h' with rfl | h'
    · exact .inr h
    · exact .inr (h.trans h')

/-! ### Lists in the order of first occurrence -/

/-- Leaving out some entries keeps the order in which the others first occur. -/
theorem idxOf_filter_lt_iff {keep : Resource → Bool} (ha : keep a) (hb : keep b) :
    (rs.filter keep).idxOf a < (rs.filter keep).idxOf b ↔ rs.idxOf a < rs.idxOf b := by
  induction rs with
  | nil => simp
  | cons r rs ih =>
    by_cases hr : keep r
    · rw [List.filter_cons_of_pos hr]
      by_cases hrb : r = b
      · subst hrb
        simp
      · by_cases hra : r = a
        · subst hra
          simp [List.idxOf_cons_ne _ hrb]
        · rw [List.idxOf_cons_ne _ hra, List.idxOf_cons_ne _ hra, List.idxOf_cons_ne _ hrb,
            List.idxOf_cons_ne _ hrb, Nat.succ_lt_succ_iff, Nat.succ_lt_succ_iff, ih]
    · have hra : r ≠ a := fun h => hr (h ▸ ha)
      have hrb : r ≠ b := fun h => hr (h ▸ hb)
      rw [List.filter_cons_of_neg hr, ih, List.idxOf_cons_ne _ hra, List.idxOf_cons_ne _ hrb,
        Nat.succ_lt_succ_iff]

/-- Erasing duplicates keeps each entry where it first occurs. -/
theorem pairwise_idxOf_eraseDups (rs : List Resource) :
    rs.eraseDups.Pairwise fun a b => rs.idxOf a < rs.idxOf b := by
  match rs with
  | [] => exact List.Pairwise.nil
  | r :: rs =>
    have hrest := pairwise_idxOf_eraseDups (rs.filter fun s => !s == r)
    have hother : ∀ s ∈ (rs.filter fun s => !s == r).eraseDups, s ≠ r := fun s hs => by
      simpa using (List.mem_filter.1 (List.mem_eraseDups.1 hs)).2
    rw [List.eraseDups_cons, List.pairwise_cons]
    constructor
    · intro s hs
      rw [List.idxOf_cons_self, List.idxOf_cons_ne _ (hother s hs).symm]
      exact Nat.succ_pos _
    · refine hrest.imp_of_mem fun {a b} ha hb hlt => ?_
      rw [idxOf_filter_lt_iff (by simpa using hother a ha) (by simpa using hother b hb)] at hlt
      rw [List.idxOf_cons_ne _ (hother a ha).symm, List.idxOf_cons_ne _ (hother b hb).symm]
      exact Nat.succ_lt_succ hlt
termination_by rs.length
decreasing_by exact Nat.lt_succ_of_le (List.length_filter_le _ _)

/-- Without its repetitions, a list repeats nothing. -/
theorem nodup_eraseDups (rs : List Resource) : rs.eraseDups.Nodup :=
  (pairwise_idxOf_eraseDups rs).imp fun {a b} (hlt : rs.idxOf a < rs.idxOf b) heq => by
    rw [heq] at hlt
    exact lt_irrefl _ hlt

/-! ### The topmost resources -/

/-- The topmost ones are those with no ancestor in the list. -/
theorem mem_topmost : r ∈ topmost rs ↔ r ∈ rs ∧ ∀ a ∈ rs, ¬a.isAncestorOf r := by
  simp only [topmost, List.mem_eraseDups, List.mem_filter, Bool.not_eq_true', List.any_eq_false]

/-- The topmost ones are those that nothing in the list stands above. -/
theorem mem_topmost_iff (h : ∀ r ∈ rs, r.WellFormed) :
    r ∈ topmost rs ↔ r ∈ rs ∧ ∀ a ∈ rs, ¬a.StandsAbove r := by
  rw [mem_topmost, and_congr_right_iff]
  exact fun hr => forall₂_congr fun a ha =>
    not_congr ((h a ha).isAncestorOf_iff_standsAbove (h r hr))

/-- The topmost ones come in the order in which they first occur. -/
theorem pairwise_idxOf_topmost (rs : List Resource) :
    (topmost rs).Pairwise fun a b => rs.idxOf a < rs.idxOf b := by
  refine (pairwise_idxOf_eraseDups _).imp_of_mem fun {a b} ha hb hlt => ?_
  exact (idxOf_filter_lt_iff (List.mem_filter.1 (List.mem_eraseDups.1 ha)).2
    (List.mem_filter.1 (List.mem_eraseDups.1 hb)).2).1 hlt

/-- Every resource of the list is covered by a topmost one: of those at or above it, by the one with
the fewest segments. -/
theorem exists_mem_topmost (h : ∀ r ∈ rs, r.WellFormed) (hr : r ∈ rs) :
    ∃ a ∈ topmost rs, a.Covers r := by
  induction hn : r.segments.length using Nat.strong_induction_on generalizing r with
  | _ n ih =>
    by_cases htop : r ∈ topmost rs
    · exact ⟨r, htop, .inl rfl⟩
    · rw [mem_topmost_iff h, not_and] at htop
      obtain ⟨a, ha, habove⟩ : ∃ a ∈ rs, a.StandsAbove r := by simpa using htop hr
      obtain ⟨top, htop, hcovers⟩ := ih a.segments.length (hn ▸ habove.length_lt) ha rfl
      exact ⟨top, htop, hcovers.trans (.inr habove)⟩

/-- **A list of places is shrunk to exactly the topmost ones**: those that no other one of the list
stands above, each once, in the order in which they first occur. None of them stands above another,
each place of the list is one of them or has one of them above it, and so they cover the same. -/
theorem topmost_exact (h : ∀ r ∈ rs, r.WellFormed) :
    (∀ r, r ∈ topmost rs ↔ r ∈ rs ∧ ∀ a ∈ rs, ¬a.StandsAbove r) ∧
      (topmost rs).Pairwise (fun a b => rs.idxOf a < rs.idxOf b) ∧
      (∀ a ∈ topmost rs, ∀ b ∈ topmost rs, ¬a.StandsAbove b) ∧
      (∀ r ∈ rs, r ∈ topmost rs ∨ ∃ a ∈ topmost rs, a.StandsAbove r) ∧
      ∀ s, (∃ a ∈ topmost rs, a.Covers s) ↔ ∃ r ∈ rs, r.Covers s := by
  have hmem : ∀ {a}, a ∈ topmost rs → a ∈ rs := fun ha => (mem_topmost.1 ha).1
  refine ⟨fun r => mem_topmost_iff h, pairwise_idxOf_topmost rs,
    fun a ha b hb => ((mem_topmost_iff h).1 hb).2 a (hmem ha), fun r hr => ?_, fun s => ⟨?_, ?_⟩⟩
  · obtain ⟨a, ha, rfl | habove⟩ := exists_mem_topmost h hr
    · exact .inl ha
    · exact .inr ⟨a, ha, habove⟩
  · rintro ⟨a, ha, hcovers⟩
    exact ⟨a, hmem ha, hcovers⟩
  · rintro ⟨r, hr, hcovers⟩
    obtain ⟨a, ha, habove⟩ := exists_mem_topmost h hr
    exact ⟨a, ha, habove.trans hcovers⟩

/-- A file and a folder of one path are both kept, and so is a path that only begins alike. -/
theorem topmost_exact_same_path :
    let rs := [file "/p/a/x", folder "/p/a", file "/p/ab", file "/p/a", folder "/q", folder "/p/a"]
    (∀ r ∈ rs, r.WellFormed) ∧
      topmost rs = [folder "/p/a", file "/p/ab", file "/p/a", folder "/q"] ∧
      (∀ r ∈ rs, r ∈ topmost rs ∨ ∃ a ∈ topmost rs, a.StandsAbove r) ∧
      ∀ s, (∃ a ∈ topmost rs, a.Covers s) ↔ ∃ r ∈ rs, r.Covers s := by
  intro rs
  have h : ∀ r ∈ rs, r.WellFormed := by
    simp only [rs, List.forall_mem_cons, List.not_mem_nil, false_implies, implies_true, and_true]
    exact ⟨(Built.path _ _).wellFormed, (Built.path _ _).wellFormed, (Built.path _ _).wellFormed,
      (Built.path _ _).wellFormed, (Built.path _ _).wellFormed, (Built.path _ _).wellFormed⟩
  exact ⟨h, by decide +kernel, (topmost_exact h).2.2.2⟩

end Resource
end StatusCache
