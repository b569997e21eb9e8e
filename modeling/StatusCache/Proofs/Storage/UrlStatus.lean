/-
# The resource at a URL

A rule says that a place has a URL, and so for what is below it (`Rule`). A resource of a project has
its URL by one rule: that of the index, if it is redirected, and else that of the project (`ruleOf`).
A URL is found in a project by another: that of the index around the URL, with its place moved into
the project, and else that of the project (`foundBy`). The status that is asked for by a URL is about
the resource that has the URL by the rule it was found by.

Nothing makes the two rules the same. The resource that is answered for has the URL if and only if
they agree about the lower of their two places (`statusOfUrl_iff`).
-/

import StatusCache.Proofs.Checkout
import StatusCache.Proofs.Storage.Hierarchy
import StatusCache.Proofs.Storage.InFlight

namespace StatusCache

open Resource (Proper)

/-! ### Rules -/

/-- A place in the workspace, by its segments, and the URL that it has. -/
structure Rule where
  segments : List String
  url : String
deriving DecidableEq

namespace Rule

variable {q q' : Rule} {segments below : List String}

/-- The URL of a place at or below that of the rule. -/
def urlOf (q : Rule) (segments : List String) : String :=
  Url.append q.url (Text.join '/' (segments.drop q.segments.length))

/-- Two rules for places above one another agree about the lower of these. -/
def Agree (q q' : Rule) : Prop :=
  if q.segments.length ≤ q'.segments.length then Url.Same (q.urlOf q'.segments) q'.url
  else Url.Same q.url (q'.urlOf q.segments)

instance (q q' : Rule) : Decidable (q.Agree q') :=
  inferInstanceAs (Decidable (if q.segments.length ≤ q'.segments.length then
    Url.Same (q.urlOf q'.segments) q'.url else Url.Same q.url (q'.urlOf q.segments)))

/-- A rule gives its own place its own URL. -/
theorem urlOf_self (q : Rule) : q.urlOf q.segments = q.url := by
  rw [urlOf, List.drop_length]
  exact Url.append_empty q.url

/-- Further down, the URL goes on with the segments in between. -/
theorem urlOf_append (hsegments : ∀ s ∈ segments ++ below, Text.Segment '/' s)
    (hq : q.segments <+: segments) :
    q.urlOf (segments ++ below) = Url.append (q.urlOf segments) (Text.join '/' below) := by
  rw [urlOf, urlOf, List.drop_append_of_le_length hq.length_le, Url.append_append]
  · exact fun s hs => hsegments s (List.mem_append_left _ (List.mem_of_mem_drop hs))
  · exact fun s hs => hsegments s (List.mem_append_right _ hs)

/-- **Rules that agree about the lower of their places agree about all that is below.** -/
theorem same_urlOf (hsegments : ∀ s ∈ segments, Text.Segment '/' s) (hq : q.segments <+: segments)
    (hq' : q'.segments <+: segments) :
    Url.Same (q.urlOf segments) (q'.urlOf segments) ↔ q.Agree q' := by
  unfold Agree
  split
  next hle =>
    obtain ⟨below, rfl⟩ := hq'
    have hbelow : ∀ s ∈ below, Text.Segment '/' s := fun s hs =>
      hsegments s (List.mem_append_right _ hs)
    rw [urlOf_append hsegments (List.prefix_of_prefix_length_le hq (List.prefix_append _ _) hle),
      urlOf_append hsegments List.prefix_rfl, Url.same_append_join hbelow, urlOf_self]
  next hlt =>
    obtain ⟨below, rfl⟩ := hq
    have hbelow : ∀ s ∈ below, Text.Segment '/' s := fun s hs =>
      hsegments s (List.mem_append_right _ hs)
    rw [urlOf_append hsegments List.prefix_rfl, urlOf_append hsegments
      (List.prefix_of_prefix_length_le hq' (List.prefix_append _ _) (Nat.le_of_not_le hlt)),
      Url.same_append_join hbelow, urlOf_self]

end Rule

namespace Storage

variable {env : Env} {s s' : Session} {st : State} {binding : Binding} {r project : Resource}
  {record : Record} {base name relative url : String} {kind : Resource.Kind}

/-! ### The rules of a storage -/

/-- The rule by which a resource of a project with the given URL has its own. -/
def ruleOf (base : String) (st : State) (project r : Resource) : Rule :=
  match if Redirected st project r then r.lineage.find? fun a => (st.switched.get? a).isSome
    else none with
  | some a => ⟨a.segments, (st.switched.get? a).getD ""⟩
  | none => ⟨project.segments, base⟩

/-- The rule by which a URL is found in a project with the given URL. The place of an entry of the
index is moved into the project; an entry for the root stands for the projects in it. -/
def foundBy (base : String) (st : State) (project : Resource) (url : String) : Rule :=
  match st.switched.around? url with
  | some (path, switched) =>
    let names := Resource.pathNames path
    let below := Resource.pathNames (Url.below switched url)
    { segments := project.segments ++ names.drop 1
      url := Url.append switched (Text.join '/' (below.take (1 - names.length))) }
  | none => { segments := project.segments, url := base }

/-- The URL around a URL by which that is found in a project with the given URL. -/
def urlAround (base : String) (st : State) (url : String) : String :=
  ((st.switched.around? url).map (·.2)).getD base

/-- The resource of a kind that has a URL, by the rule by which the URL is found. -/
def resourceAtUrl (base : String) (st : State) (project : Resource) (url : String)
    (kind : Resource.Kind) : Resource :=
  resourceIn project kind
    (match st.switched.localPath? url with
      | some path => (Resource.folder path).projectPath
      | none => Url.below base url)

/-- The rule of a resource is the first of the index on its way up, or that of its project. -/
theorem ruleOf_cases (base : String) (st : State) (project r : Resource) :
    (∃ a url, Redirected st project r ∧
      (r.lineage.find? fun a => (st.switched.get? a).isSome) = some a ∧
      st.switched.get? a = some url ∧ ruleOf base st project r = ⟨a.segments, url⟩) ∨
    (Redirected st project r → (r.lineage.find? fun a => (st.switched.get? a).isSome) = none) ∧
      ruleOf base st project r = ⟨project.segments, base⟩ := by
  by_cases hredirected : Redirected st project r
  · cases hfound : r.lineage.find? fun a => (st.switched.get? a).isSome with
    | none => exact .inr ⟨fun _ => rfl, by rw [ruleOf, if_pos hredirected, hfound]⟩
    | some a =>
      obtain ⟨url, hurl⟩ := Option.isSome_iff_exists.1 (by simpa using List.find?_some hfound)
      refine .inl ⟨a, url, hredirected, rfl, hurl, ?_⟩
      rw [ruleOf, if_pos hredirected, hfound]
      simp only [hurl, Option.getD_some]
  · exact .inr ⟨fun h => absurd h hredirected, by rw [ruleOf, if_neg hredirected]⟩

/-- The place of the rule of a resource is at or above the resource. -/
theorem segments_ruleOf (hr : r.Proper) (hproject : r.project? = some project) :
    (ruleOf base st project r).segments <+: r.segments := by
  obtain ⟨name, below, hsegments, rfl⟩ := hr.exists_project hproject
  rcases ruleOf_cases base st ⟨[name], .project⟩ r with ⟨a, url, -, hfound, -, hrule⟩ | ⟨-, hrule⟩
  · obtain ⟨rest, hrest⟩ := hr.exists_split (List.mem_of_find?_eq_some hfound)
    rw [hrule]
    exact ⟨rest, hrest.symm⟩
  · rw [hrule]
    exact ⟨below, hsegments.symm⟩

/-- **The URL of a place in a project** is that of its rule. -/
theorem nodeUrl?_eq_urlOf (hr : r.Proper) (hproject : r.project? = some project)
    (hbinding : env.host.binding? project = some binding) (s : Session) :
    nodeUrl? env s r =
      some ((ruleOf binding.node.url s.storage.state project r).urlOf r.segments) := by
  obtain ⟨name, below, hsegments, hname⟩ := hr.exists_project hproject
  have hplain : r.projectPath = Text.join '/' (r.segments.drop project.segments.length) := by
    rw [Resource.projectPath, hr.names_eq, hname, List.length_singleton]
  rw [nodeUrl?_of_proper hr hproject hbinding]
  rcases ruleOf_cases binding.node.url s.storage.state project r with
    ⟨a, url, hredirected, hfound, hurl, hrule⟩ | ⟨hnone, hrule⟩
  · obtain ⟨rest, hrest⟩ := hr.exists_split (List.mem_of_find?_eq_some hfound)
    have hrelative := hr.relativeTo?_eq (List.mem_of_find?_eq_some hfound) hrest
    rw [hrule, if_pos hredirected, Switched.resolve?_eq, hfound, Option.bind_some, hurl,
      Option.bind_some, hrelative, Option.map_some, Option.getD_some, Rule.urlOf, hrest,
      List.drop_left]
  · have hresolve : (if Redirected s.storage.state project r then
        s.storage.state.switched.resolve? r else none) = none := by
      split
      next h => rw [Switched.resolve?_eq, hnone h, Option.bind_none]
      · rfl
    rw [hrule, hresolve, Option.getD_none, hplain, Rule.urlOf]

/-! ### The resource at a URL -/

/-- A path in a project names a place in it. -/
theorem proper_resourceIn (hname : Text.Segment '/' name)
    (hrelative : relative = "" ∨ Resource.pathNames relative ≠ []) (kind : Resource.Kind) :
    (resourceIn ⟨[name], .project⟩ kind relative).Proper ∧
      (resourceIn ⟨[name], .project⟩ kind relative).segments =
        name :: Resource.pathNames relative := by
  have hnames : (⟨[name], .project⟩ : Resource).names = [name] := by
    simp [Resource.names, hname.1]
  have hplace : ∀ kind, (Resource.ofNames (name :: Resource.pathNames relative) kind).WellFormed :=
    Resource.wellFormed_ofNames fun s hs => by
      rcases List.mem_cons.1 hs with rfl | hs
      · exact hname.1
      · exact (Resource.segment_of_mem_pathNames hs).1
  have hplain : ∀ s ∈ name :: Resource.pathNames relative, '/' ∉ s.toList := fun s hs => by
    rcases List.mem_cons.1 hs with rfl | hs
    · exact hname.2
    · exact (Resource.segment_of_mem_pathNames hs).2
  unfold resourceIn
  split
  next hempty =>
    subst hempty
    exact ⟨⟨hplace .folder, hplain, fun h => by cases h⟩, rfl⟩
  next hne =>
    have hmore : Resource.pathNames relative ≠ [] := hrelative.resolve_left hne
    have hlength : 2 ≤ (name :: Resource.pathNames relative).length :=
      Nat.succ_le_succ (List.length_pos_iff.2 hmore)
    split
    · have hfolder : (⟨[name], .project⟩ : Resource).folderAt relative =
          Resource.ofNames (name :: Resource.pathNames relative) .folder := by
        unfold Resource.folderAt
        rw [hnames]
        split
        next hnil => exact absurd hnil hmore
        · rfl
      rw [hfolder]
      exact ⟨⟨hplace .folder, by rwa [Resource.segments_ofNames], fun _ => by
        rwa [Resource.segments_ofNames]⟩, Resource.segments_ofNames _ _⟩
    · rw [Resource.fileAt, hnames, List.singleton_append]
      exact ⟨⟨hplace .file, by rwa [Resource.segments_ofNames], fun _ => by
        rwa [Resource.segments_ofNames]⟩, Resource.segments_ofNames _ _⟩

/-- What is left of a URL below another has names, unless it is empty. -/
theorem pathNames_below_ne_nil (above url : String) :
    Url.below above url = "" ∨ Resource.pathNames (Url.below above url) ≠ [] := by
  rw [or_iff_not_imp_left]
  exact fun hne hnil => hne (Resource.pathNames_trim_eq_nil.1 hnil)

/-- The path of a folder inside of its project leaves out the first name. -/
theorem projectPath_folder (path : String) :
    (Resource.folder path).projectPath = Text.join '/' ((Resource.pathNames path).drop 1) := by
  have hnames : (Resource.folder path).names = Resource.pathNames path := by
    rw [Resource.names, Resource.folder, Resource.ofPath, Resource.segments_ofNames]
    exact List.filter_eq_self.2 fun s hs => by simpa using (Resource.segment_of_mem_pathNames hs).1
  rw [Resource.projectPath, hnames]

/-- The path that the index has for a URL has the names of its entry, and those that are left. -/
theorem pathNames_localPath (path rest : String) :
    Resource.pathNames (if rest = "" then path else path ++ "/" ++ rest) =
      Resource.pathNames path ++ Resource.pathNames rest := by
  split
  next hempty =>
    subst hempty
    exact (List.append_nil _).symm
  · exact Resource.pathNames_append path rest

/-- The names inside of its project of the resource at a URL. -/
def namesAtUrl (base : String) (st : State) (url : String) : List String :=
  match st.switched.around? url with
  | some (path, switched) =>
    (Resource.pathNames path ++ Resource.pathNames (Url.below switched url)).drop 1
  | none => Resource.pathNames (Url.below base url)

/-- **A URL leads to a place in the project.** -/
theorem proper_resourceAtUrl (hname : Text.Segment '/' name) (base : String) (st : State)
    (url : String) (kind : Resource.Kind) :
    (resourceAtUrl base st ⟨[name], .project⟩ url kind).Proper ∧
      (resourceAtUrl base st ⟨[name], .project⟩ url kind).segments =
        name :: namesAtUrl base st url := by
  unfold resourceAtUrl namesAtUrl
  rw [Switched.localPath?_eq]
  cases st.switched.around? url with
  | none => exact proper_resourceIn hname (pathNames_below_ne_nil base url) kind
  | some e =>
    obtain ⟨path, switched⟩ := e
    simp only [Option.map_some]
    generalize hlocal : (if Url.below switched url = "" then path
      else path ++ "/" ++ Url.below switched url) = place
    have hnames := pathNames_localPath path (Url.below switched url)
    rw [hlocal] at hnames
    have hsegments : ∀ s ∈ (Resource.pathNames place).drop 1, Text.Segment '/' s := fun s hs =>
      Resource.segment_of_mem_pathNames (List.mem_of_mem_drop hs)
    have hinside := Resource.pathNames_join hsegments
    rw [← projectPath_folder] at hinside
    have hrelative : (Resource.folder place).projectPath = "" ∨
        Resource.pathNames (Resource.folder place).projectPath ≠ [] := by
      rw [or_iff_not_imp_right, not_not, hinside, projectPath_folder]
      exact (Text.join_eq_empty hsegments).2
    rw [← hnames, ← hinside]
    exact proper_resourceIn hname hrelative kind

/-- **The place of the rule by which a URL is found** is at or above the resource, and the rule gives
the resource the URL without its empty segments. -/
theorem urlOf_foundBy (base : String) (st : State) (project : Resource) (url : String) :
    (foundBy base st project url).segments <+: project.segments ++ namesAtUrl base st url ∧
      (foundBy base st project url).urlOf (project.segments ++ namesAtUrl base st url) =
        Url.append (urlAround base st url)
          (Text.join '/' (Resource.pathNames (Url.below (urlAround base st url) url))) := by
  unfold foundBy namesAtUrl urlAround
  cases st.switched.around? url with
  | none =>
    simp only [Option.map_none, Option.getD_none]
    exact ⟨List.prefix_append _ _, by rw [Rule.urlOf, List.drop_left]⟩
  | some e =>
    obtain ⟨path, switched⟩ := e
    simp only [Option.map_some, Option.getD_some]
    generalize hfront : Resource.pathNames path = front
    generalize hrest : Resource.pathNames (Url.below switched url) = rest
    have hsegments : ∀ s ∈ rest, Text.Segment '/' s := fun s hs =>
      Resource.segment_of_mem_pathNames (hrest ▸ hs)
    -- An entry with names takes none of what is left of the URL, and one for the root the first.
    have hsplit : (front ++ rest).drop 1 = front.drop 1 ++ rest.drop (1 - front.length) := by
      rw [List.drop_append]
    rw [hsplit, ← List.append_assoc]
    refine ⟨List.prefix_append _ _, ?_⟩
    rw [Rule.urlOf, List.drop_left, Url.append_append switched
      (fun s hs => hsegments s (List.mem_of_mem_take hs))
      (fun s hs => hsegments s (List.mem_of_mem_drop hs)), List.take_append_drop]

/-- Where no entry of the index is around a URL, what has the URL has it by the rule of its project. -/
theorem ruleOf_eq_of_around? (hr : r.Proper) (hnone : st.switched.around? url = none)
    (hsame : Url.Same ((ruleOf base st project r).urlOf r.segments) url) :
    ruleOf base st project r = ⟨project.segments, base⟩ := by
  rcases ruleOf_cases base st project r with ⟨a, v, -, -, hv, hrule⟩ | ⟨-, hrule⟩
  · -- The URL of the entry would be around the URL.
    rw [hrule] at hsame
    refine absurd ?_ (Switched.not_isPrefix_of_around? hnone (Switched.mem_entries_of_get? hv))
    exact Url.isPrefix_of_same_append (fun s hs => hr.segment s (List.mem_of_mem_drop hs)) hsame
  · exact hrule

/-- A status that is asked for by a URL is that of the resource at the URL. There is none for a URL
that lies neither below one of the index nor below that of the project. -/
theorem run_statusOfUrl (hproject : project.project? = some project)
    (hbinding : env.host.binding? project = some binding) (url : String) (kind : Resource.Kind)
    (s : Session) : (statusOfUrl env project url kind).run s =
      if (s.storage.state.switched.around? url).isSome ∨ Url.isPrefix binding.node.url url then
        (status env (resourceAtUrl binding.node.url s.storage.state project url kind)).run s
      else (.ok (Record.invalid project), s) := by
  have hnode : (node env project).run s = (.ok binding.node, s) := by
    unfold node
    simp only [hproject, hbinding]
    rw [if_pos trivial]
    rfl
  unfold statusOfUrl
  rw [run_bind_ok (run_get s)]
  unfold resourceAtUrl
  rw [Switched.localPath?_eq]
  cases s.storage.state.switched.around? url with
  | some e => rfl
  | none =>
    simp only [Option.map_none, Option.isSome_none, Bool.false_eq_true, false_or]
    rw [run_bind_ok hnode]
    split
    · rfl
    · rfl

/-- A status is about the resource that it was asked for. -/
theorem resource_of_status (config : Config) (now : Int) {ops : List (Env × Operation)}
    (hs : ({ storage := make config now } : Session).run ops = s)
    (hrun : (status env r).run s = (.ok record, s')) : record.resource = r := by
  have hkeyed := keyed_run config now (ops ++ [(env, .status r)])
  have hlast : Session.run { storage := make config now } (ops ++ [(env, .status r)]) = s' := by
    rw [Session.run_append, hs]
    exact congrArg Prod.snd hrun
  rw [run_status_eq] at hrun
  obtain ⟨w, hlookup, hstate, -⟩ := exists_of_run_runLookup hrun
  rcases Lookup.ensures_lookup_about r _ _ record w trivial hlookup with habout | hcached
  · exact habout
  · rw [hlast, hstate] at hkeyed
    exact hkeyed r record hcached

/-- **When a URL leads to the resource that has it.** Whatever a storage has been asked or told, if a
status that is asked for by a URL in a shared project is valid, then it is about a resource of the
project.

* If the URL goes on with segments below the one by which it is found, the resource has the URL, up to
  slashes at the end, if and only if the rule by which it has its URL and the one by which the URL is
  found agree about the lower of their places.
* If the two rules are the same, the resource has the URL if and only if that goes on with segments.
* If no entry of the index is around the URL, the resource has the URL if and only if both are so: it
  has its URL by that of the project, and the URL goes on with segments below that. -/
theorem statusOfUrl_iff (config : Config) (now : Int) {ops : List (Env × Operation)}
    (hs : ({ storage := make config now } : Session).run ops = s) (hproject : project.Proper)
    (hkind : project.kind = .project) (hbinding : env.host.binding? project = some binding)
    (hrun : (statusOfUrl env project url kind).run s = (.ok record, s'))
    (hvalid : ¬record.isInvalid) :
    let st := s.storage.state
    let base := binding.node.url
    let rule := ruleOf base st project record.resource
    let found := foundBy base st project url
    record.resource.project? = some project ∧
    (Url.Tidy (urlAround base st url) url →
      (Agrees env s record.resource url ↔ rule.Agree found)) ∧
    (rule = found →
      (Agrees env s record.resource url ↔ Url.Tidy (urlAround base st url) url)) ∧
    (st.switched.around? url = none →
      (Agrees env s record.resource url ↔ rule = found ∧ Url.Tidy (urlAround base st url) url)) := by
  intro st base rule found
  obtain ⟨name, hname⟩ := hproject.segments_project hkind
  have hsegment : Text.Segment '/' name := hproject.segment name (by simp [hname])
  obtain rfl : project = ⟨[name], .project⟩ := by rw [← hname, ← hkind]
  -- A valid record is the answer for the resource at the URL, so that is what it is about.
  have hstatus : (status env (resourceAtUrl base st ⟨[name], .project⟩ url kind)).run s =
      (.ok record, s') := by
    rw [run_statusOfUrl (hproject.project?_eq hname) hbinding] at hrun
    split at hrun
    · exact hrun
    · cases hrun
      exact absurd rfl hvalid
  have hresource := resource_of_status config now hs hstatus
  obtain ⟨hr, hsegments⟩ := proper_resourceAtUrl hsegment base st url kind
  rw [← hresource] at hr hsegments
  have hrproject := hr.project?_eq hsegments
  obtain ⟨hplace, hurl⟩ := urlOf_foundBy base st ⟨[name], .project⟩ url
  rw [List.singleton_append, ← hsegments] at hplace hurl
  -- Both URLs are now given by rules, for the segments of one and the same resource.
  have hagrees : Agrees env s record.resource url ↔
      Url.Same (rule.urlOf record.resource.segments) url := by
    simp [Agrees, nodeUrl?_eq_urlOf hr hrproject hbinding s, rule, base, st]
  have htidy : Url.Same (found.urlOf record.resource.segments) url ↔
      Url.Tidy (urlAround base st url) url := by rw [hurl, Url.Tidy]
  have hsame : rule = found →
      (Agrees env s record.resource url ↔ Url.Tidy (urlAround base st url) url) := fun heq => by
    rw [hagrees, heq, htidy]
  refine ⟨hrproject, fun hgoes => ?_, hsame, fun hnone => ?_⟩
  · rw [hagrees, ← Rule.same_urlOf hr.segment (segments_ruleOf hr hrproject) hplace]
    have hgives : Text.trimEnd '/' (found.urlOf record.resource.segments) =
        Text.trimEnd '/' url := htidy.2 hgoes
    rw [Url.Same, Url.Same, hgives]
  · have hfound : found = ⟨[name], base⟩ := by
      unfold found foundBy
      rw [hnone]
    refine ⟨fun hagree => ?_, fun hboth => (hsame hboth.1).2 hboth.2⟩
    have heq : rule = found := (ruleOf_eq_of_around? hr hnone (hagrees.1 hagree)).trans hfound.symm
    exact ⟨heq, (hsame heq).1 hagree⟩

/-- The URL that a switched folder would have if it were not switched leads to the folder. -/
theorem statusOfUrl_iff_switched :
    let env := Checkout.env [(["wc", "a"], .dir 0)]
      { status := [("wc", .ok [Checkout.root]),
          ("wc/a", .ok [Checkout.folder "wc/a" "http://h/r/branches/b/a"])] }
    let s := Checkout.start.run [(env, .status (.folder "/p/a"))]
    ∃ record,
      ((statusOfUrl env Checkout.project "http://h/r/trunk/a" .folder).run s).1 = .ok record ∧
      ¬record.isInvalid ∧ ¬Agrees env s record.resource "http://h/r/trunk/a" := by
  intro env s
  let record := Record.bare (.folder "/p/a") .normal { switched := true }
  have hproject : Checkout.project.Proper := Resource.proper_ofPath "/p" .folder (.inl rfl)
  have hbinding : env.host.binding? Checkout.project = some ⟨⟨"wc"⟩, Checkout.trunk⟩ := rfl
  have hnone : s.storage.state.switched.around? "http://h/r/trunk/a" = none := by
    unfold s env
    decide +kernel
  have hrun : (statusOfUrl env Checkout.project "http://h/r/trunk/a" .folder).run s =
      (.ok record, s) := by
    have hbelow : Url.isPrefix Checkout.trunk.url "http://h/r/trunk/a" := by decide +kernel
    have hat : resourceAtUrl Checkout.trunk.url s.storage.state Checkout.project
        "http://h/r/trunk/a" .folder = .folder "/p/a" := by
      unfold s env
      decide +kernel
    have hcached : s.storage.state.cache.get? (.folder "/p/a") = some record := by
      unfold record s env
      decide +kernel
    have haccessible : (lookupEnv env s.storage).isAccessible (.folder "/p/a") := by
      unfold s env
      decide +kernel
    have henabled : s.storage.cacheEnabled := by
      unfold s env
      decide +kernel
    rw [run_statusOfUrl rfl hbinding, if_pos (.inr hbelow), hat,
      status_of_cached henabled haccessible hcached]
  have hrules : ruleOf Checkout.trunk.url s.storage.state Checkout.project (.folder "/p/a") ≠
      foundBy Checkout.trunk.url s.storage.state Checkout.project "http://h/r/trunk/a" := by
    unfold s env
    decide +kernel
  refine ⟨record, congrArg Prod.fst hrun, by decide +kernel, fun hagrees => ?_⟩
  obtain ⟨-, -, -, hplain⟩ :=
    statusOfUrl_iff {} 0 rfl hproject rfl hbinding hrun (by decide +kernel)
  exact hrules ((hplain hnone).1 hagrees).1

end Storage
end StatusCache
