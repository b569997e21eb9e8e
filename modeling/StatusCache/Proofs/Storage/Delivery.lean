/-
# What listeners hear

Resource events may be folded, but between them they cover what was fired
(`Dispatch.resources_covered`). Project events are never folded, yet one is dropped if an equal one
is pending, whatever was fired in between. So a listener hears of the last state of a project last,
unless that state was pending already when it was fired (`Dispatch.last_told`).
-/

import StatusCache.Proofs.Storage.Dispatch

namespace StatusCache

open Queue

/-! ### Registering -/

namespace Listeners

variable {l : Listeners} {channel : Channel} {name other : String}

/-- A listener that is registered once is so after others were. -/
theorem count_add_projects (h : l.projects.count name = 1) :
    (l.add channel other).projects.count name = 1 := by
  cases channel with
  | projects =>
    unfold add
    split
    · exact h
    next hother =>
      have hne : other ≠ name := by
        rintro rfl
        exact hother (List.one_le_count_iff.1 (Nat.le_of_eq h.symm))
      change (l.projects ++ [other]).count name = 1
      rw [List.count_append, List.count_singleton, h]
      simp [hne]
  | resources => unfold add; split <;> exact h
  | repositories => unfold add; split <;> exact h
  | properties => unfold add; split <;> exact h

/-- A listener that is registered once is so after others left. -/
theorem count_remove_projects (h : l.projects.count name = 1)
    (hother : channel = .projects → other ≠ name) :
    (l.remove channel other).projects.count name = 1 := by
  cases channel with
  | projects =>
    change (l.projects.filter (· ≠ other)).count name = 1
    rw [List.count_filter (by simpa using (hother rfl).symm), h]
  | resources => exact h
  | repositories => exact h
  | properties => exact h

end Listeners

namespace Storage

/-- The state that a notice reports of a project. -/
def Notice.stateOf? (project : Resource) : Notice → Option ProjectEvent.State
  | .event e => e.stateOf? project
  | .repository _ => none
  | .property _ => none

/-- The states of a project that a listener was told of, in their order. -/
def statesTold (name : String) (project : Resource) (notices : List (String × Notice)) :
    List ProjectEvent.State :=
  notices.filterMap fun told => if told.1 = name then told.2.stateOf? project else none

/-- A listener is told of an event as often as it is on the list. -/
theorem statesTold_map (name : String) (project : Resource) (e : Event) (names : List String) :
    statesTold name project (names.map fun other => (other, .event e)) =
      Event.statesOf project (List.replicate (names.count name) e) := by
  induction names with
  | nil => rfl
  | cons other names ih =>
    have hcons : ∀ notices : List (String × Notice),
        statesTold name project ((other, .event e) :: notices) =
          (if other = name then Event.statesOf project [e] else []) ++
            statesTold name project notices := by
      intro notices
      unfold statesTold
      rw [List.filterMap_cons]
      by_cases hother : other = name
      · rw [if_pos hother, if_pos hother, Event.statesOf_singleton, Notice.stateOf?]
        cases e.stateOf? project <;> rfl
      · rw [if_neg hother, if_neg hother]
        rfl
    rw [List.map_cons, hcons, ih, List.count_cons]
    by_cases hother : other = name
    · rw [if_pos hother, if_pos (beq_iff_eq.2 hother), ← Event.statesOf_append,
        List.singleton_append, List.replicate_succ]
    · rw [if_neg hother, if_neg (by simpa using hother)]
      rfl

namespace Dispatch

variable {d d' : Dispatch} {e : Event} {m : Move} {moves more : List Move}

/-! ### Resource events -/

/-- An event that is or was handled names only what was named in fired events of its kind and
depth. -/
theorem exists_fire_of_handled {config : Config} {now : Int} {x : ResourceEvent}
    (hx : .finished (.resources x) ∈ ((start config now).run moves).log ∨
      ((start config now).run moves).running = some (.resources x)) {r : Resource}
    (hr : r ∈ x.resources) :
    ∃ e, .fire (.resources e) ∈ moves ∧ e.kind = x.kind ∧ e.depth = x.depth ∧
      r ∈ e.resources := by
  have htaken := (orderly_run config now moves).taken_mem hx
  obtain ⟨parts, hparts, hpushed⟩ := (settled_run config now moves).served.exists_parts htaken
  obtain ⟨p, hp, hnamed⟩ := (Event.mem_named_of_folded hparts).1 hr
  obtain ⟨e, rfl, hkind, hdepth⟩ := Event.key_eq_resources (hparts.key_eq Event.keyed p hp)
  exact ⟨e, fire_mem_of_pushed (hpushed _ hp), hkind, hdepth, hnamed⟩

/-- Of each kind and depth at most one event is pending. -/
theorem pairwise_pending (config : Config) (now : Int) (moves : List Move) :
    ((start config now).run moves).pending.Pairwise fun a b => ∀ x y, a = .resources x →
      b = .resources y → ¬(x.kind = y.kind ∧ x.depth = y.depth) := by
  have hnodup := List.pairwise_map.1 (settled_run config now moves).nodup
  refine hnodup.imp ?_
  rintro a b hne x y rfl rfl ⟨hkind, hdepth⟩
  exact hne (by simp [Event.key, hkind, hdepth])

/-- What an accepted event covers is covered by one that is taken and handled later. -/
theorem exists_handled_of_covers {config : Config} {now : Int} {e : ResourceEvent} {r : Resource}
    (hd : (start config now).run moves = d)
    (hwants : d.session.storage.listeners.wants (.resources e)) (hcovers : e.covers r)
    (hdrained : (d.run (.fire (.resources e) :: more)).IsDrained) :
    ∃ newer, (d.run (.fire (.resources e) :: more)).log =
        newer ++ .pushed (.resources e) :: d.log ∧
      ∃ x, .taken (.resources x) ∈ newer ∧ .finished (.resources x) ∈ newer ∧
        x.kind = e.kind ∧ x.depth = e.depth ∧ x.covers r := by
  have hrun : (start config now).run (moves ++ .fire (.resources e) :: more) =
      d.run (.fire (.resources e) :: more) := by rw [run_append, hd]
  have horderly := orderly_run config now (moves ++ .fire (.resources e) :: more)
  have hsettled := settled_run config now (moves ++ .fire (.resources e) :: more)
  rw [hrun] at horderly hsettled
  obtain ⟨newer, hnewer⟩ := suffix_run (d.after (.fire (.resources e))) more
  have hfired : (d.after (.fire (.resources e))).log = .pushed (.resources e) :: d.log := by
    rw [after_fire hwants]
  have hlog : (d.run (.fire (.resources e) :: more)).log =
      newer ++ .pushed (.resources e) :: d.log := by
    rw [← hfired, hnewer]
    rfl
  obtain ⟨a, parts, htaken, hparts, hpart⟩ := hsettled.exists_taken hlog hdrained.1
  obtain ⟨x, rfl, hkind, hdepth⟩ :=
    Event.key_eq_resources (hparts.key_eq Event.keyed _ hpart).symm
  have hsub : ∀ r ∈ e.resources, r ∈ x.resources := fun r hr =>
    (Event.mem_named_of_folded hparts).2 ⟨_, hpart, hr⟩
  have hfinished : .finished (.resources x) ∈ newer := by
    obtain ⟨later, earlier, rfl⟩ := List.append_of_mem htaken
    rw [List.append_assoc, List.cons_append] at hlog
    rcases horderly.finished later _ _ hlog with hlater | hrunning
    · exact List.mem_append_left _ hlater
    · cases hdrained.2.symm.trans hrunning
  exact ⟨newer, hlog, x, htaken, hfinished, hkind, hdepth,
    ResourceEvent.covers_mono hdepth.symm hsub hcovers⟩

/-- **Resource events cover between them what was fired.** At every moment, an event that is or was
handled names only resources that were named in fired events of its kind and depth, and of each kind
and depth at most one event is pending. Once the queue has drained, everything that an accepted
event covers is covered by an event of its kind and depth that was taken and handled after that was
fired. -/
theorem resources_covered (config : Config) (now : Int) (moves : List Move) :
    let d := (start config now).run moves
    (∀ x, (.finished (.resources x) ∈ d.log ∨ d.running = some (.resources x)) →
      ∀ r ∈ x.resources, ∃ e, .fire (.resources e) ∈ moves ∧ e.kind = x.kind ∧
        e.depth = x.depth ∧ r ∈ e.resources) ∧
    (d.pending.Pairwise fun a b => ∀ x y, a = .resources x → b = .resources y →
      ¬(x.kind = y.kind ∧ x.depth = y.depth)) ∧
    ∀ e more r, d.session.storage.listeners.wants (.resources e) → e.covers r →
      (d.run (.fire (.resources e) :: more)).IsDrained →
        ∃ newer, (d.run (.fire (.resources e) :: more)).log =
            newer ++ .pushed (.resources e) :: d.log ∧
          ∃ x, .taken (.resources x) ∈ newer ∧ .finished (.resources x) ∈ newer ∧
            x.kind = e.kind ∧ x.depth = e.depth ∧ x.covers r :=
  ⟨fun _ hx _ hr => exists_fire_of_handled hx hr, pairwise_pending config now moves,
    fun _ _ _ hwants hcovers hdrained => exists_handled_of_covers rfl hwants hcovers hdrained⟩

/-- What a folded event covered is covered by the event that it was folded into. -/
theorem resources_covered_folded :
    let e : ResourceEvent := { resources := [.folder "/p/a"], depth := .one }
    let other : ResourceEvent := { resources := [.folder "/p/b"], depth := .one }
    let d := (start {} 0).run [.listen .resources "L", .fire (.resources other)]
    let final := d.run [.fire (.resources e), .take, .handle]
    final.IsDrained ∧ ∃ x, .finished (.resources x) ∈ final.log ∧ x.kind = e.kind ∧
      x.depth = e.depth ∧ x.covers (.file "/p/a/f") := by
  intro e other d final
  have hdrained : final.IsDrained := by decide
  obtain ⟨-, -, hcovered⟩ :=
    resources_covered {} 0 [.listen .resources "L", .fire (.resources other)]
  obtain ⟨newer, hlog, x, -, hfinished, hx⟩ :=
    hcovered e [.take, .handle] (.file "/p/a/f") (by decide) (by decide) hdrained
  exact ⟨hdrained, x, hlog ▸ List.mem_append_left _ hfinished, hx⟩

/-! ### Project events -/

/-- The states of a project that the worker has taken or will take, as things stand. -/
def statesDue (project : Resource) (d : Dispatch) : List ProjectEvent.State :=
  Event.statesOf project (takenIn d.log ++ d.pending)

/-- A listener is registered for project events, and was told of those that were handled. -/
structure Hears (name : String) (project : Resource) (d : Dispatch) : Prop where
  registered : d.session.storage.listeners.projects.count name = 1
  told : statesTold name project d.session.notices = Event.statesOf project (finishedIn d.log)

variable {name : String} {project : Resource}

/-- A listener hears on unless it leaves. -/
theorem Hears.step (h : Hears name project d) (hm : m ≠ .unlisten .projects name)
    (hstep : Step d m d') : Hears name project d' := by
  cases hstep with
  | fire hwants => exact ⟨h.registered, h.told⟩
  | listen channel other => exact ⟨Listeners.count_add_projects h.registered, h.told⟩
  | unlisten channel other =>
    refine ⟨Listeners.count_remove_projects h.registered ?_, h.told⟩
    rintro rfl rfl
    exact hm rfl
  | take hidle htake => exact ⟨h.registered, h.told⟩
  | @handle e hbusy =>
    refine ⟨h.registered, ?_⟩
    have hadded : statesTold name project ((d.session.storage.listeners.of e).map
        fun name => (name, .event e)) = Event.statesOf project [e] := by
      rw [statesTold_map]
      cases e with
      | resources x =>
        rw [Event.statesOf_singleton, Event.statesOf, List.filterMap_replicate_of_none rfl]
        rfl
      | project x =>
        change Event.statesOf project (List.replicate
          (d.session.storage.listeners.projects.count name) _) = _
        rw [h.registered, List.replicate_one]
    change statesTold name project (_ ++ _) = Event.statesOf project (finishedIn d.log ++ [e])
    rw [Event.statesOf_append, ← h.told, ← hadded, statesTold, List.filterMap_append]
    rfl
  | nothing => exact h

/-- A listener for projects wants project events. -/
theorem Hears.wants (h : Hears name project d) (x : ProjectEvent) :
    d.session.storage.listeners.wants (.project x) := by
  have hmem : name ∈ d.session.storage.listeners.projects :=
    List.one_le_count_iff.1 (Nat.le_of_eq h.registered.symm)
  simpa [Listeners.wants] using List.ne_nil_of_mem hmem

/-- A listener that does not leave hears all the time. -/
theorem hears_run (config : Config) (now : Int) (name : String) (project : Resource)
    (hstays : .unlisten .projects name ∉ moves) :
    Hears name project ((start config now).run (.listen .projects name :: moves)) := by
  have hstart : Hears name project ((start config now).after (.listen .projects name)) := by
    refine ⟨?_, rfl⟩
    change (Listeners.add {} .projects name).projects.count name = 1
    simp [Listeners.add, Listeners.on, Listeners.set]
  have hrun : (start config now).run (.listen .projects name :: moves) =
      ((start config now).after (.listen .projects name)).run moves := rfl
  rw [hrun]
  exact run_induction (fun m hm d d' hstep h => h.step (fun heq => hstays (heq ▸ hm)) hstep) hstart

/-- What is due of a project stays the same while no event of it is fired. -/
theorem Step.statesDue (h : Step d m d') (hlive : d.session.storage.eventQueue.stopped = false)
    (hother : ∀ e, m = .fire e → e.stateOf? project = none) :
    d'.statesDue project = d.statesDue project := by
  cases h with
  | @fire e hwants =>
    have hnone := hother e rfl
    unfold Dispatch.statesDue pending
    rw [takenIn, Event.statesOf_append, Event.statesOf_append, push, if_neg (by simp [hlive]),
      Event.statesOf_enqueue, hnone, Option.toList_none, ite_self, List.append_nil]
  | listen channel other => rfl
  | unlisten channel other => rfl
  | take hidle htake =>
    unfold Dispatch.statesDue pending
    rw [takenIn, pending_of_take htake, List.append_assoc, List.singleton_append]
  | handle hbusy => rfl
  | nothing => rfl

/-- If no state of a project is told, what is due stays the same. -/
theorem statesDue_run (horderly : d.station.Orderly)
    (hother : Event.statesOf project (firedIn more) = []) :
    (d.run more).statesDue project = d.statesDue project := by
  have hnone : ∀ e, .fire e ∈ more → e.stateOf? project = none := fun e he =>
    List.filterMap_eq_nil_iff.1 hother e (List.mem_filterMap.2 ⟨.fire e, he, rfl⟩)
  have hkept : (d.run more).station.Orderly ∧
      (d.run more).statesDue project = d.statesDue project := by
    refine run_induction
      (I := fun d' => d'.station.Orderly ∧ d'.statesDue project = d.statesDue project)
      (fun m hm d₁ d₂ hstep => ?_) ⟨horderly, rfl⟩
    rintro ⟨horderly, hdue⟩
    refine ⟨hstep.orderly horderly, ?_⟩
    rw [hstep.statesDue horderly.live fun e heq => hnone e (heq ▸ hm), hdue]
  exact hkept.2

/-- An event of a project that is fired is due behind the others, unless an equal one is pending. -/
theorem statesDue_fire {x : ProjectEvent} (hlive : d.session.storage.eventQueue.stopped = false)
    (hwants : d.session.storage.listeners.wants (.project x)) :
    (d.after (.fire (.project x))).statesDue x.project =
      d.statesDue x.project ++ if .project x ∈ d.pending then [] else [x.state] := by
  have hstate : (Event.project x).stateOf? x.project = some x.state := if_pos rfl
  rw [after_fire hwants]
  unfold Dispatch.statesDue pending
  rw [takenIn, Event.statesOf_append, Event.statesOf_append, push, if_neg (by simp [hlive]),
    Event.statesOf_enqueue, hstate, Option.toList_some, List.append_assoc]

/-- Once the queue has drained, a listener was told of all that was due. -/
theorem Hears.told_of_drained (h : Hears name project d) (horderly : d.station.Orderly)
    (hdrained : d.IsDrained) :
    statesTold name project d.session.notices = d.statesDue project := by
  have htaken : takenIn d.log = finishedIn d.log ++ d.running.toList := horderly.taken_eq
  rw [h.told, Dispatch.statesDue, htaken, hdrained.1, hdrained.2, Option.toList_none,
    List.append_nil, List.append_nil]

/-- **What a listener hears last of a project.** A listener is registered for project events and
stays so. The last event of a project is fired, and some time later the queue has drained. Then the
last state of the project that the listener was told of is that of the event; but if an equal event
was pending when it was fired, it is that of the newest event of the project that was pending
then. -/
theorem last_told {config : Config} {now : Int} {x : ProjectEvent}
    (hd : (start config now).run (.listen .projects name :: moves) = d)
    (hstays : .unlisten .projects name ∉ moves ++ more)
    (hlast : Event.statesOf x.project (firedIn more) = [])
    (hdrained : (d.run (.fire (.project x) :: more)).IsDrained) :
    (statesTold name x.project (d.run (.fire (.project x) :: more)).session.notices).getLast? =
      if .project x ∈ d.pending then (Event.statesOf x.project d.pending).getLast?
      else some x.state := by
  rw [List.mem_append, not_or] at hstays
  have horderly : d.station.Orderly := hd ▸ orderly_run config now _
  have hears : Hears name x.project d := hd ▸ hears_run config now name x.project hstays.1
  let final := d.run (.fire (.project x) :: more)
  have hall : .unlisten .projects name ∉ moves ++ .fire (.project x) :: more := by simp [hstays]
  have hfinal : (start config now).run
      (.listen .projects name :: (moves ++ .fire (.project x) :: more)) = final := by
    rw [← List.cons_append, run_append, hd]
  have horderlyFinal : final.station.Orderly := hfinal ▸ orderly_run config now _
  have hearsFinal : Hears name x.project final :=
    hfinal ▸ hears_run config now name x.project hall
  -- What is due when the event is fired is told in the end, and nothing about the project besides.
  have htold : statesTold name x.project final.session.notices =
      d.statesDue x.project ++ if .project x ∈ d.pending then [] else [x.state] := by
    calc
      statesTold name x.project final.session.notices
        = final.statesDue x.project := hearsFinal.told_of_drained horderlyFinal hdrained
      _ = (d.after (.fire (.project x))).statesDue x.project :=
          statesDue_run ((step_after d _).orderly horderly) hlast
      _ = d.statesDue x.project ++ if .project x ∈ d.pending then [] else [x.state] :=
          statesDue_fire horderly.live (hears.wants x)
  rw [htold]
  split
  next hpending =>
    have hne : Event.statesOf x.project d.pending ≠ [] :=
      List.ne_nil_of_mem (List.mem_filterMap.2 ⟨_, hpending, if_pos rfl⟩)
    rw [List.append_nil, Dispatch.statesDue, Event.statesOf_append,
      List.getLast?_append_of_ne_nil _ hne]
  · rw [List.getLast?_append]
    rfl

/-- A project that is opened again after its first opening was handled is heard of as opened. -/
theorem last_told_reopened :
    let opened : ProjectEvent := { project := .project "p", state := .opened }
    let closed : ProjectEvent := { project := .project "p", state := .closed }
    let d := (start {} 0).run
      [.listen .projects "L", .fire (.project opened), .take, .handle, .fire (.project closed)]
    (d.run [.fire (.project opened), .take, .handle, .take, .handle]).IsDrained ∧
      (statesTold "L" opened.project (d.run
        [.fire (.project opened), .take, .handle, .take, .handle]).session.notices).getLast? =
          some opened.state := by
  intro opened closed d
  have hd : (start {} 0).run (.listen .projects "L" :: [.fire (.project opened), .take, .handle,
      .fire (.project closed)]) = d := rfl
  have hdrained : (d.run [.fire (.project opened), .take, .handle, .take, .handle]).IsDrained := by
    decide
  have hnew : .project opened ∉ d.pending := by decide
  have htold := last_told hd (by decide) (by decide) hdrained
  rw [if_neg hnew] at htold
  exact ⟨hdrained, htold⟩

/-- A project that is opened again while its first opening is pending is heard of as closed: the
second opening is dropped for the first, which is delivered before the closing. -/
theorem last_told_overtaken :
    let p := Resource.project "p"
    let opened : Event := .project { project := p, state := .opened }
    let closed : Event := .project { project := p, state := .closed }
    let moves : List Move := [.listen .projects "L", .fire opened, .fire closed, .fire opened,
      .take, .handle, .take, .handle]
    let d := (start {} 0).run moves
    d.IsDrained ∧ .unlisten .projects "L" ∉ moves ∧
      (Event.statesOf p (firedIn moves)).getLast? = some .opened ∧
      (statesTold "L" p d.session.notices).getLast? = some .closed := by
  decide

end Dispatch

end Storage
end StatusCache
