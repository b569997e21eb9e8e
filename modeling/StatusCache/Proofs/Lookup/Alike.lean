/-
# Holding two runs of a lookup against each other

What a lookup answers depends on what it finds cached, and on nothing else that it shares with other
lookups. Two runs are held against each other: they start from worlds with the same records in a set
of resources (`Agree`), and end alike, with related results and again the same records there
(`Follows`). What they do to other resources may differ, but must not fail (`Spares`), so the
backend must not cancel (`Backend.Calm`). It answers the same way every time (`Backend.Steady`).

The set has to hold the containers above its members (`Upward`), since records there are read
wherever flags are inherited.
-/

import StatusCache.Backend.Fixed
import StatusCache.Proofs.Cache.Nearest
import StatusCache.Proofs.Lookup.Steps

namespace StatusCache

/-- The backend answers a request the same way every time. -/
structure Backend.Steady (b : Backend) : Prop where
  status : ∀ calls calls' path depth options,
    b.status calls path depth options = b.status calls' path depth options
  info : ∀ calls calls' reference depth,
    b.info calls reference depth = b.info calls' reference depth

/-- The backend never cancels. -/
structure Backend.Calm (b : Backend) : Prop where
  status : ∀ calls path depth options, b.status calls path depth options ≠ .error .cancelled
  info : ∀ calls reference depth, b.info calls reference depth ≠ .error .cancelled

namespace Backend.Fixed

variable (known : Fixed)

/-- Fixed answers do not depend on what was asked before. -/
theorem steady : known.backend.Steady := ⟨fun _ _ _ _ _ => rfl, fun _ _ _ _ => rfl⟩

/-- A backend with fixed answers cancels only where it is given such an answer. -/
theorem calm (hstatus : ∀ path, known.status.lookup path ≠ some (.error .cancelled))
    (hinfo : ∀ path, known.info.lookup path ≠ some (.error .cancelled)) : known.backend.Calm := by
  constructor
  · intro calls path depth options
    change known.statusOf path depth ≠ _
    unfold statusOf
    split
    next answer hanswer => exact fun heq => hstatus path.text (heq ▸ hanswer)
    · split <;> simp
  · intro calls reference depth
    change (known.info.lookup reference.path).getD (.ok []) ≠ _
    cases hanswer : known.info.lookup reference.path with
    | none => simp
    | some answer => exact fun heq => hinfo reference.path (heq ▸ hanswer)

end Backend.Fixed

namespace Lookup

variable {env : Env} {D : Resource → Prop} {α β γ δ : Type} {w w' : World} {r p a : Resource}

/-- A set of resources holds the containers above its members. -/
def Upward (D : Resource → Prop) : Prop := ∀ r p, D r → r.parent? = some p → D p

/-- A set that goes upward holds the lineages of its members. -/
theorem Upward.of_mem_lineage (hD : Upward D) (hr : D r) (ha : a ∈ r.lineage) : D a := by
  induction r using Resource.parent_induction with
  | step r ih =>
    cases hp : r.parent? with
    | none =>
      rw [Resource.lineage, Resource.ancestors_of_parent?_none hp, List.mem_singleton] at ha
      exact ha ▸ hr
    | some p =>
      rcases (Resource.mem_lineage_of_parent? hp).1 ha with rfl | ha
      · exact hr
      · exact ih p hp (hD r p hr hp) ha

/-- A lineage goes upward. -/
theorem upward_lineage (r : Resource) : Upward (· ∈ r.lineage) := by
  intro a p ha hp
  exact Resource.mem_lineage_trans
    ((Resource.mem_lineage_of_parent? hp).2 (Or.inr p.self_mem_lineage)) ha

/-! ### Worlds that agree -/

/-- Two worlds have the same records in a set of resources. -/
def Agree (D : Resource → Prop) (w w' : World) : Prop :=
  ∀ r, D r → w.state.cache.get? r = w'.state.cache.get? r

namespace Agree

/-- A world agrees with itself. -/
theorem refl (D : Resource → Prop) (w : World) : Agree D w w := fun _ _ => rfl

/-- Agreement goes both ways. -/
theorem symm (h : Agree D w w') : Agree D w' w := fun r hr => (h r hr).symm

/-- Agreement is transitive. -/
theorem trans {w'' : World} (h : Agree D w w') (h' : Agree D w' w'') : Agree D w w'' :=
  fun r hr => (h r hr).trans (h' r hr)

/-- Worlds that agree have the same nearest record above a resource. -/
theorem nearestAbove? (h : Agree D w w') (hD : Upward D) (hr : D r) :
    w.state.cache.nearestAbove? r = w'.state.cache.nearestAbove? r :=
  Cache.nearestAbove?_congr fun a ha => h a (hD.of_mem_lineage hr (List.mem_cons_of_mem r ha))

/-- Worlds that agree on a set agree on a smaller one. -/
theorem mono {S : Resource → Prop} (h : Agree D w w') (hsub : ∀ r, S r → D r) : Agree S w w' :=
  fun r hr => h r (hsub r hr)

/-- A record that is committed in both worlds need not agree before. -/
theorem registered {record : Record} (h : Agree (fun k => D k ∧ k ≠ record.resource) w w') :
    Agree D (registered env record w) (registered env record w') := by
  intro k hk
  rw [cache_registered, cache_registered, Cache.get?_put, Cache.get?_put, resource_committed]
  by_cases heq : record.resource = k
  · cases hp : k.parent? with
    | none => simp [Cache.get?, hp]
    | some p => simp [heq]
  · rw [if_neg fun hand => heq hand.1, if_neg fun hand => heq hand.1]
    exact h k ⟨hk, fun hne => heq hne.symm⟩

/-- A record outside of the set is not seen. -/
theorem registered_of_not {record : Record} (hr : ¬D record.resource) (w : World) :
    Agree D w (Lookup.registered env record w) := by
  intro k hk
  rw [cache_registered, Cache.get?_put, resource_committed, if_neg]
  rintro ⟨rfl, -⟩
  exact hr hk

end Agree

/-! ### Runs that follow each other -/

/-- A failure of the backend that is no cancellation. -/
def Mishap (e : Error) : Prop := ∃ failure, e = .backend failure ∧ failure ≠ .cancelled

/-- Two runs end alike: with related results, or with the same mishap. -/
def Alike (D : Resource → Prop) (Q : α → β → Prop) :
    Except Error α × World → Except Error β × World → Prop
  | (.ok a, w), (.ok b, w') => Q a b ∧ Agree D w w'
  | (.error e, w), (.error e', w') => e = e' ∧ Mishap e ∧ Agree D w w'
  | _, _ => False

/-- From worlds that agree, two actions end alike. -/
def Follows (D : Resource → Prop) (Q : α → β → Prop) (x : Action α) (y : Action β) : Prop :=
  ∀ w w', Agree D w w' → Alike D Q (x.run w) (y.run w')

/-- From worlds that agree, an action ends alike, and with the same result. -/
abbrev Repeats (D : Resource → Prop) (x : Action α) : Prop := Follows D (· = ·) x x

/-- An action succeeds and is not seen. -/
def Spares (D : Resource → Prop) (P : α → Prop) (x : Action α) : Prop :=
  ∀ w, ∃ a w', x.run w = (.ok a, w') ∧ P a ∧ Agree D w w'

namespace Follows

variable {Q : α → β → Prop} {R : γ → δ → Prop}

/-- Related results end alike. -/
theorem pure {a : α} {b : β} (h : Q a b) : Follows D Q (pure a) (pure b) :=
  fun _ _ hw => ⟨h, hw⟩

/-- The same mishap ends alike. -/
theorem throw {e : Error} (he : Mishap e) : Follows D Q (throw e) (throw e) :=
  fun _ _ hw => ⟨rfl, he, hw⟩

/-- Two actions that end alike go on with two that do. -/
theorem bind {x : Action α} {y : Action β} {f : α → Action γ} {g : β → Action δ}
    (hxy : Follows D Q x y) (hfg : ∀ a b, Q a b → Follows D R (f a) (g b)) :
    Follows D R (x >>= f) (y >>= g) := by
  intro w w' hw
  have hrun := hxy w w' hw
  rw [run_bind, run_bind]
  rcases hx : x.run w with ⟨e | a, v⟩ <;> rcases hy : y.run w' with ⟨e' | b, v'⟩ <;>
    rw [hx, hy] at hrun
  · exact hrun
  · exact hrun.elim
  · exact hrun.elim
  · exact hfg a b hrun.1 v v' hrun.2

/-- After the same result, of which something is known, two actions go on as it says. -/
theorem nextOf {P : α → Prop} {x y : Action α} {f : α → Action γ} {g : α → Action δ}
    (hxy : Follows D (fun a b => a = b ∧ P a) x y) (hfg : ∀ a, P a → Follows D R (f a) (g a)) :
    Follows D R (x >>= f) (y >>= g) :=
  hxy.bind fun a _ h => h.1 ▸ hfg a h.2

/-- After the same result, two actions go on as it says. -/
theorem next {x y : Action α} {f : α → Action γ} {g : α → Action δ}
    (hxy : Follows D (· = ·) x y) (hfg : ∀ a, Follows D R (f a) (g a)) :
    Follows D R (x >>= f) (y >>= g) :=
  hxy.bind fun a _ heq => heq ▸ hfg a

/-- A choice ends alike if both branches do. -/
theorem ite {c : Prop} [Decidable c] {x x' : Action α} {y y' : Action β} (hx : c → Follows D Q x y)
    (hy : ¬c → Follows D Q x' y') :
    Follows D Q (if c then x else x') (if c then y else y') := by
  by_cases hc : c
  · rw [if_pos hc, if_pos hc]
    exact hx hc
  · rw [if_neg hc, if_neg hc]
    exact hy hc

/-- A fold ends alike if each of its turns does. -/
theorem foldlM {f : β → α → Action β} {P : β → Prop}
    (hf : ∀ b a, P b → Follows D (fun b b' => b = b' ∧ P b) (f b a) (f b a)) (as : List α) {b : β}
    (hb : P b) : Follows D (fun b b' => b = b' ∧ P b) (as.foldlM f b) (as.foldlM f b) := by
  induction as generalizing b with
  | nil => exact .pure ⟨rfl, hb⟩
  | cons a as ih =>
    exact (hf b a hb).nextOf fun b hb' => ih hb'

/-- Two actions that are not seen end alike. -/
theorem of_spares {P : α → Prop} {S : β → Prop} {x : Action α} {y : Action β} (hx : Spares D P x)
    (hy : Spares D S y) (h : ∀ a b, P a → S b → Q a b) : Follows D Q x y := by
  intro w w' hw
  obtain ⟨a, v, hrun, ha, hv⟩ := hx w
  obtain ⟨b, v', hrun', hb, hv'⟩ := hy w'
  rw [hrun, hrun']
  exact ⟨h a b ha hb, hv.symm.trans (hw.trans hv')⟩

/-- What ends alike with related results does with results in a wider relation. -/
theorem mono {Q' : α → β → Prop} {x : Action α} {y : Action β} (hxy : Follows D Q x y)
    (h : ∀ a b, Q a b → Q' a b) : Follows D Q' x y := by
  intro w w' hw
  have hrun := hxy w w' hw
  rcases hx : x.run w with ⟨e | a, v⟩ <;> rcases hy : y.run w' with ⟨e' | b, v'⟩ <;>
    rw [hx, hy] at hrun
  · exact hrun
  · exact hrun.elim
  · exact hrun.elim
  · exact ⟨h a b hrun.1, hrun.2⟩

end Follows

namespace Repeats

variable {x y : Action α} {f : α → Action γ}

/-- The same value ends alike. -/
theorem pure (a : α) : Repeats D (pure a) := Follows.pure rfl

/-- The same mishap ends alike, with no result to compare. -/
theorem throw {e : Error} (he : Mishap e) : Repeats D (throw e : Action α) := Follows.throw he

/-- What ends alike goes on with what ends alike for every result. -/
theorem bind (hx : Repeats D x) (hf : ∀ a, Repeats D (f a)) : Repeats D (x >>= f) :=
  Follows.next hx hf

/-- What ends alike goes on with what ends alike for each result that can occur. -/
theorem bindOf {P : α → Prop} (hx : Follows D (fun a b => a = b ∧ P a) x x)
    (hf : ∀ a, P a → Repeats D (f a)) : Repeats D (x >>= f) :=
  Follows.nextOf hx hf

/-- The same choice ends alike if both branches do. -/
theorem ite {c : Prop} [Decidable c] (hx : Repeats D x) (hy : Repeats D y) :
    Repeats D (if c then x else y) :=
  Follows.ite (fun _ => hx) fun _ => hy

/-- Two alternatives that go on alike. -/
theorem join {c : Prop} [Decidable c] (hx : Repeats D x) (hy : Repeats D y)
    (hf : ∀ a, Repeats D (f a)) : Repeats D (if c then x >>= f else y >>= f) :=
  ite (bind hx hf) (bind hy hf)

end Repeats

namespace Spares

variable {P : α → Prop} {R : γ → Prop}

/-- A value without an action is not seen. -/
theorem pure {a : α} (h : P a) : Spares D P (pure a) := fun w => ⟨a, w, rfl, h, .refl D w⟩

/-- One action after another is not seen if neither is. -/
theorem bind {x : Action α} {f : α → Action γ} (hx : Spares D P x)
    (hf : ∀ a, P a → Spares D R (f a)) : Spares D R (x >>= f) := by
  intro w
  obtain ⟨a, v, hrun, ha, hv⟩ := hx w
  obtain ⟨c, u, hrun', hc, hu⟩ := hf a ha v
  exact ⟨c, u, by rw [run_bind_ok hrun, hrun'], hc, hv.trans hu⟩

/-- A choice is not seen if neither branch is. -/
theorem ite {c : Prop} [Decidable c] {x y : Action α} (hx : Spares D P x) (hy : Spares D P y) :
    Spares D P (if c then x else y) := by
  split
  · exact hx
  · exact hy

/-- What only looks at the world is not seen. -/
theorem of_reads {x : Action α} (hx : Reads x) : Spares D (fun _ => True) x := by
  intro w
  obtain ⟨a, hrun⟩ := hx w
  exact ⟨a, w, hrun, trivial, .refl D w⟩

end Spares

end Lookup
end StatusCache
