/-
# How events coalesce

Resource events go by their kind and depth, and a project event goes by itself (`Event.keyed`). An
event into which others were folded names what its parts name (`Event.mem_named_of_folded`), so it
covers what they cover. Of project events nothing is folded: one that is pushed is either dropped,
because an equal one is pending, or waits behind the others (`Event.statesOf_enqueue`).
-/

import StatusCache.Event
import StatusCache.Proofs.Queue.Station

namespace StatusCache

open Queue

variable {r : Resource}

/-- The resources of two lists come together. -/
theorem mem_addNew (rs more : List Resource) : r ∈ addNew rs more ↔ r ∈ rs ∨ r ∈ more := by
  unfold addNew
  induction more generalizing rs with
  | nil => simp
  | cons x more ih =>
    rw [List.foldl_cons, ih, List.mem_cons]
    split
    next hx =>
      have hmem : r = x → r ∈ rs := fun heq => heq ▸ hx
      exact ⟨fun h => h.imp_right .inr, fun h => h.elim .inl fun h => h.imp_left hmem⟩
    · rw [List.mem_append, List.mem_singleton, or_assoc]

/-- An event that names more at the same depth covers more. -/
theorem ResourceEvent.covers_mono {e e' : ResourceEvent} (hdepth : e.depth = e'.depth)
    (hsub : ∀ r ∈ e.resources, r ∈ e'.resources) (h : e.covers r) : e'.covers r := by
  unfold covers at h ⊢
  rw [List.any_eq_true] at h ⊢
  obtain ⟨x, hx, hcovers⟩ := h
  exact ⟨x, hsub x hx, hdepth ▸ hcovers⟩

namespace Event

/-- What an event goes by. -/
inductive Key
  | resources (kind : ResourceEvent.Kind) (depth : Depth)
  | project (e : ProjectEvent)
deriving DecidableEq

/-- What a waiting event goes by: resource events by kind and depth, project events by themselves. -/
def key : Event → Key
  | .resources e => .resources e.kind e.depth
  | .project e => .project e

variable {a b c e : Event} {parts : List Event}

/-- What has the key of an event about resources is one, with the same kind and depth. -/
theorem key_eq_resources {x : ResourceEvent} (h : e.key = key (.resources x)) :
    ∃ y, e = .resources y ∧ y.kind = x.kind ∧ y.depth = x.depth := by
  cases e with
  | project y => cases h
  | resources y => exact ⟨y, rfl, by simpa [key] using h⟩

/-- Events can be merged if both are about resources, with the same kind and depth. -/
theorem canMerge_iff : Coalesce.canMerge a b ↔
    ∃ x y : ResourceEvent, a = .resources x ∧ b = .resources y ∧ x.kind = y.kind ∧
      x.depth = y.depth := by
  cases a <;> cases b <;> simp [Coalesce.canMerge]

/-- An event is dropped for an equal one, or folded into a resource event of its kind and depth. -/
theorem absorbs_iff : Absorbs a b c ↔ (a = b ∧ c = a) ∨
    ∃ x y : ResourceEvent, a = .resources x ∧ b = .resources y ∧ x.kind = y.kind ∧
      x.depth = y.depth ∧
      c = .resources { x with resources := addNew x.resources y.resources } := by
  constructor
  · rintro (⟨-, hsame⟩ | hmerge)
    · exact .inl ⟨of_decide_eq_true hsame, rfl⟩
    · obtain ⟨x, y, rfl, rfl, hkind, hdepth⟩ := canMerge_iff.1 hmerge
      exact .inr ⟨x, y, rfl, rfl, hkind, hdepth, rfl⟩
  · rintro (⟨rfl, rfl⟩ | ⟨x, y, rfl, rfl, hkind, hdepth, rfl⟩)
    · exact .skip rfl (decide_eq_true rfl)
    · exact .merge (canMerge_iff.2 ⟨x, y, rfl, rfl, hkind, hdepth⟩)

/-- Events go by their keys. -/
theorem keyed : Keyed key where
  absorbs {a b} h := by
    cases a with
    | project x =>
      cases b with
      | project y =>
        obtain rfl : x = y := by simpa [key] using h
        exact ⟨_, absorbs_iff.2 (.inl ⟨rfl, rfl⟩)⟩
      | resources y => cases h
    | resources x =>
      cases b with
      | project y => cases h
      | resources y =>
        obtain ⟨hkind, hdepth⟩ : x.kind = y.kind ∧ x.depth = y.depth := by simpa [key] using h
        exact ⟨_, absorbs_iff.2 (.inr ⟨x, y, rfl, rfl, hkind, hdepth, rfl⟩)⟩
  key_eq habsorbs := by
    rcases absorbs_iff.1 habsorbs with ⟨rfl, rfl⟩ | ⟨x, y, rfl, rfl, hkind, hdepth, rfl⟩
    · exact ⟨rfl, rfl⟩
    · exact ⟨by simp [key, hkind, hdepth], rfl⟩

/-- The resources that an event names. -/
def named : Event → List Resource
  | .resources e => e.resources
  | .project _ => []

/-- **A folded event names what its parts name**, and nothing else. -/
theorem mem_named_of_folded (h : Folded parts a) : r ∈ a.named ↔ ∃ p ∈ parts, r ∈ p.named := by
  induction h with
  | single a => simp
  | absorb h hc ih =>
    simp only [List.mem_append, List.mem_singleton, or_and_right, exists_or, exists_eq_left, ← ih]
    rcases absorbs_iff.1 hc with ⟨rfl, rfl⟩ | ⟨x, y, rfl, rfl, -, -, rfl⟩
    · exact or_self_iff.symm
    · exact mem_addNew x.resources y.resources

/-- The state that an event reports of a project. -/
def stateOf? (project : Resource) : Event → Option ProjectEvent.State
  | .project e => if e.project = project then some e.state else none
  | .resources _ => none

/-- The states that events report of a project, in their order. -/
def statesOf (project : Resource) (events : List Event) : List ProjectEvent.State :=
  events.filterMap (stateOf? project)

/-- The states told by events one after the other. -/
theorem statesOf_append (project : Resource) (events more : List Event) :
    statesOf project (events ++ more) = statesOf project events ++ statesOf project more :=
  List.filterMap_append

/-- A single event tells at most one state. -/
theorem statesOf_singleton (project : Resource) (e : Event) :
    statesOf project [e] = (stateOf? project e).toList := by
  unfold statesOf
  cases h : stateOf? project e with
  | none => rw [List.filterMap_cons_none h, List.filterMap_nil, Option.toList_none]
  | some state => rw [List.filterMap_cons_some h, List.filterMap_nil, Option.toList_some]

/-- **A project event that is pushed waits behind the others, unless an equal one is pending.** -/
theorem statesOf_enqueue (project : Resource) (q : Queue Event) (item : Event) :
    statesOf project (q.enqueue item).pending =
      statesOf project q.pending ++
        if item ∈ q.pending then [] else (stateOf? project item).toList := by
  rcases enqueue_cases q item with ⟨hq, hnone⟩ | ⟨front, p, back, p', hsplit, habsorbs, hq⟩ <;>
    rw [hq]
  · have hnew : item ∉ q.pending := fun hmem =>
      hnone item hmem item (absorbs_iff.2 (.inl ⟨rfl, rfl⟩))
    rw [if_neg hnew, statesOf_append, statesOf_singleton]
  · have hcons : ∀ p : Event, statesOf project (front ++ p :: back) =
        statesOf project front ++ (stateOf? project p).toList ++ statesOf project back := by
      intro p
      rw [← statesOf_singleton, ← statesOf_append, ← statesOf_append, List.append_assoc]
      rfl
    rcases absorbs_iff.1 habsorbs with ⟨rfl, rfl⟩ | ⟨x, y, rfl, rfl, -, -, rfl⟩
    · rw [if_pos (by simp [hsplit]), List.append_nil, hsplit]
    · simp only [hsplit, hcons, stateOf?, Option.toList_none, ite_self, List.append_nil]

end Event

end StatusCache
