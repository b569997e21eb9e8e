/-
# The order of the entries of an answer

The entries of an answer are put in the order of their paths, step by step and not letter by letter.
So what lies in a directory follows the directory at once: no name that only begins alike, such as
`a-b` or `a.txt` next to `a`, comes between `a` and `a/x`. In that order the paths at or below a
directory are convex (`Path.isPrefix_of_between`), and in a sorted list what has a convex property
is contiguous (`filter_infix_of_convex`). Entries of one path stay as they were given
(`Entry.arrange_exact`).
-/

import StatusCache.Proofs.Path

namespace StatusCache

/-! ### Sorted lists -/

section Sorted

variable {α : Type} {r : α → α → Prop} {p : α → Bool} {x : α} {xs : List α}

/-- Behind something that has a convex property, all that has it comes first. -/
theorem filter_prefix_of_convex (hconvex : ∀ a b c, r a b → r b c → p a → p c → p b)
    (hsorted : (x :: xs).Pairwise r) (hx : p x) : xs.filter p <+: xs := by
  induction xs generalizing x with
  | nil => exact List.prefix_rfl
  | cons y ys ih =>
    obtain ⟨hfirst, hrest⟩ := List.pairwise_cons.1 hsorted
    by_cases hy : p y
    · rw [List.filter_cons_of_pos hy, List.cons_prefix_cons]
      exact ⟨rfl, ih hrest hy⟩
    · have hnone : ys.filter p = [] := List.filter_eq_nil_iff.2 fun z hz hpz =>
        have hyz := (List.pairwise_cons.1 hrest).1 z hz
        hy (hconvex x y z (hfirst y List.mem_cons_self) hyz hx hpz)
      rw [List.filter_cons_of_neg hy, hnone]
      exact List.nil_prefix

/-- **In a sorted list, what has a convex property is contiguous.** -/
theorem filter_infix_of_convex (hconvex : ∀ a b c, r a b → r b c → p a → p c → p b)
    (hsorted : xs.Pairwise r) : xs.filter p <:+: xs := by
  induction xs with
  | nil => exact List.infix_rfl
  | cons x xs ih =>
    by_cases hx : p x
    · rw [List.filter_cons_of_pos hx]
      exact (List.cons_prefix_cons.2
        ⟨rfl, filter_prefix_of_convex hconvex hsorted hx⟩).isInfix
    · rw [List.filter_cons_of_neg hx]
      exact List.infix_cons (ih (List.pairwise_cons.1 hsorted).2)

/-- In a sorted list, what has a property comes first if all that stands before it has it too. -/
theorem filter_append_filter_not (hclosed : ∀ a ∈ xs, ∀ b ∈ xs, r a b → p b → p a)
    (hsorted : xs.Pairwise r) : xs.filter p ++ xs.filter (fun a => !p a) = xs := by
  induction xs with
  | nil => rfl
  | cons x xs ih =>
    obtain ⟨hfirst, hrest⟩ := List.pairwise_cons.1 hsorted
    have hrest := ih (fun a ha b hb => hclosed a (List.mem_cons_of_mem x ha) b
      (List.mem_cons_of_mem x hb)) hrest
    by_cases hx : p x
    · rw [List.filter_cons_of_pos hx, List.filter_cons_of_neg (by simpa using hx),
        List.cons_append, hrest]
    · have hnone : xs.filter p = [] := List.filter_eq_nil_iff.2 fun y hy hpy =>
        hx (hclosed x List.mem_cons_self y (List.mem_cons_of_mem x hy) (hfirst y hy) hpy)
      rw [hnone, List.nil_append] at hrest
      rw [List.filter_cons_of_neg hx, hnone, List.filter_cons_of_pos (by simpa using hx), hrest,
        List.nil_append]

end Sorted

/-! ### Paths above paths -/

namespace Path

variable {p q dir : Path}

/-- A path lies above another if its steps begin those of the other, and are not all of them. -/
def LiesAbove (dir p : Path) : Prop := p.startsWith dir ∧ ¬p.same dir

instance (dir p : Path) : Decidable (dir.LiesAbove p) := inferInstanceAs (Decidable (_ ∧ _))

/-- Paths are the same if their components are. -/
theorem same_iff : p.same q ↔ p.components = q.components := decide_eq_true_iff

/-- A path starts with every path that is the same. -/
theorem startsWith_of_same (h : p.same dir) : p.startsWith dir :=
  startsWith_iff.2 (same_iff.1 h ▸ List.prefix_rfl)

/-- A path that lies above another comes before it. -/
theorem LiesAbove.not_isLE (h : dir.LiesAbove p) : ¬(compare p dir).isLE := fun hle =>
  h.2 (same_iff.2 (eq_of_isPrefix_of_isLE (startsWith_iff.1 h.1) hle).symm)

/-- **What comes between two paths at or below a directory is at or below it.** -/
theorem isPrefix_of_between {front a b c : List Component} (ha : front <+: a) (hc : front <+: c)
    (hab : (compare a b).isLE) (hbc : (compare b c).isLE) : front <+: b := by
  induction front generalizing a b c with
  | nil => exact List.nil_prefix
  | cons step front ih =>
    obtain ⟨a, rfl⟩ := ha
    obtain ⟨c, rfl⟩ := hc
    cases b with
    | nil => cases hab
    | cons next b =>
      rw [List.cons_append, List.compare_cons_cons, Ordering.isLE_then_iff_and] at hab hbc
      have hstep : step = next :=
        Std.LawfulEqOrd.eq_of_compare (Std.OrientedCmp.isLE_antisymm hab.1 hbc.1)
      subst hstep
      rw [Std.ReflOrd.compare_self] at hab hbc
      exact List.cons_prefix_cons.2 ⟨rfl, ih (List.prefix_append _ _) (List.prefix_append _ _)
        (hab.2.resolve_left (by decide)) (hbc.2.resolve_left (by decide))⟩

/-- As texts, `a-b` stands between `a` and `a/x`; as paths it does not. -/
example : ("a" < "a-b" ∧ "a-b" < "a/x") ∧ compare (⟨"a/x"⟩ : Path) ⟨"a-b"⟩ = .lt := by
  decide +kernel

end Path

namespace Entry

/-! ### Arranged entries -/

/-- Arranging loses no entry and adds none. -/
theorem arrange_perm (entries : List Entry) : (arrange entries).Perm entries :=
  List.mergeSort_perm _ _

/-- Entries of one path keep their order. -/
theorem filter_same_arrange (entries : List Entry) (path : Path) :
    (arrange entries).filter (·.path.same path) = entries.filter (·.path.same path) := by
  have hequal : (entries.filter (·.path.same path)).Pairwise fun a b =>
      (compare a.path b.path).isLE := by
    refine List.pairwise_of_forall_mem_list fun a ha b hb => ?_
    have ha := Path.same_iff.1 (List.mem_filter.1 ha).2
    have hb := Path.same_iff.1 (List.mem_filter.1 hb).2
    rw [Path.compare_eq, ha, hb, Std.ReflOrd.compare_self]
    rfl
  have hsublist : (entries.filter (·.path.same path)).Sublist (arrange entries) :=
    List.sublist_mergeSort isLE_trans isLE_total hequal List.filter_sublist
  have hfiltered := hsublist.filter (·.path.same path)
  rw [List.filter_filter] at hfiltered
  simp only [Bool.and_self] at hfiltered
  exact (hfiltered.eq_of_length ((arrange_perm entries).filter _).length_eq.symm).symm

/-- No entry stands behind one of a path that its own path lies above. -/
theorem pairwise_not_liesAbove_arrange (entries : List Entry) :
    (arrange entries).Pairwise fun a b => ¬b.path.LiesAbove a.path :=
  (pairwise_arrange entries).imp fun hle habove => habove.not_isLE hle

/-- What lies at or below a directory is contiguous. -/
theorem filter_startsWith_infix_arrange (entries : List Entry) (dir : Path) :
    (arrange entries).filter (·.path.startsWith dir) <:+: arrange entries := by
  refine filter_infix_of_convex (fun a b c hab hbc ha hc => ?_) (pairwise_arrange entries)
  exact Path.startsWith_iff.2
    (Path.isPrefix_of_between (Path.startsWith_iff.1 ha) (Path.startsWith_iff.1 hc) hab hbc)

/-- Of what lies at or below a directory, the entries of the directory itself come first. -/
theorem filter_startsWith_arrange (entries : List Entry) (dir : Path) :
    (arrange entries).filter (·.path.startsWith dir) =
      (arrange entries).filter (·.path.same dir) ++
        (arrange entries).filter (dir.LiesAbove ·.path) := by
  have hclosed : ∀ a ∈ (arrange entries).filter (·.path.startsWith dir),
      ∀ b ∈ (arrange entries).filter (·.path.startsWith dir),
      (compare a.path b.path).isLE → b.path.same dir → a.path.same dir := by
    intro a ha b _ hle hb
    rw [Path.compare_eq, Path.same_iff.1 hb, ← Path.compare_eq] at hle
    by_contra hother
    exact Path.LiesAbove.not_isLE ⟨(List.mem_filter.1 ha).2, hother⟩ hle
  rw [← filter_append_filter_not hclosed ((pairwise_arrange entries).filter _),
    List.filter_filter, List.filter_filter]
  congr 1
  · refine List.filter_congr fun e _ => ?_
    by_cases hsame : e.path.same dir
    · rw [hsame, Path.startsWith_of_same hsame]
      rfl
    · rw [Bool.eq_false_iff.2 hsame]
      rfl
  · refine List.filter_congr fun e _ => ?_
    rw [Bool.eq_iff_iff, decide_eq_true_iff, Path.LiesAbove, Bool.and_eq_true, and_comm]
    simp

/-- **Entries are arranged with every directory right before what lies in it.** Each stays as often
as it is given, and those of one path in the same order; no entry comes after one that lies below
its path; and what lies at or below a directory is contiguous, with the directory itself first. -/
theorem arrange_exact (entries : List Entry) :
    (arrange entries).Perm entries ∧
      (∀ path : Path, (arrange entries).filter (·.path.same path) =
        entries.filter (·.path.same path)) ∧
      (arrange entries).Pairwise (fun a b => ¬b.path.LiesAbove a.path) ∧
      ∀ dir : Path, (arrange entries).filter (·.path.startsWith dir) <:+: arrange entries ∧
        (arrange entries).filter (·.path.startsWith dir) =
          (arrange entries).filter (·.path.same dir) ++
            (arrange entries).filter (dir.LiesAbove ·.path) :=
  ⟨arrange_perm entries, filter_same_arrange entries, pairwise_not_liesAbove_arrange entries,
    fun dir => ⟨filter_startsWith_infix_arrange entries dir, filter_startsWith_arrange entries dir⟩⟩

end Entry

end StatusCache
