/-
# The steps of a lookup

Whatever a lookup does, it does in six kinds of steps (`Lookup.Step`): it asks the backend, commits
a plain record, describes a node by an entry, gives an empty bucket to a container, leaves folders
for later, or, without a cache, forgets everything. Two of them write records, and both look at the
state they find. A plain record is switched only below a switched container. An entry describes only
what has no record yet, and takes its flags from the nearest container above as it is then. The same
steps with the very records that they write are the turns of a lookup (`Lookup.Turn`).

Between these steps a lookup reads (`Reads`) or asks (`Asks`), and neither changes what is kept. A
scan, or the work on an answer, only asks and writes records (`Lookup.Write`).
-/

import StatusCache.Proofs.Action
import StatusCache.Proofs.Lookup.Finding

open Relation (ReflTransGen)

namespace StatusCache

namespace Lookup

variable {env : Env} {α β : Type} {w w' : World} {E : World → World → Prop}

/-! ### Committed records -/

/-- What is committed differs from a record in its text status, and in lacking a provenance. -/
theorem committed_eq (env : Env) (record : Record) :
    ∃ text, env.committed record = { record with text := text }.canonical := by
  unfold Env.committed
  simp only
  split
  · split
    · exact ⟨.ignored, rfl⟩
    · exact ⟨.notExists, rfl⟩
  · exact ⟨record.text, rfl⟩

/-- Committing leaves what a record is about. -/
@[simp]
theorem resource_committed (env : Env) (record : Record) :
    (env.committed record).resource = record.resource := by
  obtain ⟨text, h⟩ := committed_eq env record
  rw [h, Record.canonical]
  split <;> rfl

/-- Committing leaves the flags. -/
@[simp]
theorem mask_committed (env : Env) (record : Record) :
    (env.committed record).mask = record.mask := by
  obtain ⟨text, h⟩ := committed_eq env record
  rw [h, Record.canonical]
  split <;> rfl

/-- Committing leaves the revision of the working copy. -/
@[simp]
theorem baseRevision_committed (env : Env) (record : Record) :
    (env.committed record).baseRevision = record.baseRevision := by
  obtain ⟨text, h⟩ := committed_eq env record
  rw [h, Record.canonical]
  split <;> rfl

/-- A record without provenance is committed as one. -/
theorem committed_bare (env : Env) (r : Resource) (text : Status) (mask : Mask) :
    ∃ text', env.committed (.bare r text mask) = .bare r text' mask := by
  obtain ⟨text', h⟩ := committed_eq env (.bare r text mask)
  refine ⟨text', ?_⟩
  rw [h, Record.canonical]
  split <;> rfl

/-- The world after a record is committed. -/
def registered (env : Env) (record : Record) (w : World) : World :=
  ((register env record).run w).2

/-- Registering commits a record, and answers with what was committed. -/
theorem run_register (env : Env) (record : Record) (w : World) :
    (register env record).run w = (.ok (env.committed record), registered env record w) := rfl

/-- What was committed is cached. -/
@[simp]
theorem cache_registered (env : Env) (record : Record) (w : World) :
    (registered env record w).state.cache = w.state.cache.put (env.committed record) := rfl

/-- Registering leaves the index of switched nodes. -/
@[simp]
theorem switched_registered (env : Env) (record : Record) (w : World) :
    (registered env record w).state.switched = w.state.switched := rfl

/-- The world in which a switched node is noted. -/
def noted (record : Record) (url : String) (w : World) : World :=
  if record.mask.switched then
    { w with state := { w.state with switched := w.state.switched.insert record.resource url } }
  else w

/-- Noting a URL leaves the cache. -/
@[simp]
theorem cache_noted (record : Record) (url : String) (w : World) :
    (noted record url w).state.cache = w.state.cache := by
  unfold noted
  split <;> rfl

/-- The world after a finding is described. A switched one is noted with its URL. -/
def described (env : Env) (batch : Batch) (f : Finding) (above : Option Record)
    (isExternal : Bool) (text : Status) (w : World) : World :=
  let record := recordOf batch f above isExternal text
  registered env record (noted record (Url.decode (f.entry.url.getD "")) w)

/-! ### Steps -/

/-- The single steps of a lookup. -/
inductive Step (env : Env) : World → World → Prop
  | ask (w : World) (call : Backend.Call) : Step env w { w with calls := call :: w.calls }
  | plain (w : World) (r : Resource) (text : Status) (mask : Mask)
      (h : mask.switched → (w.state.cache.nearestAbove? r).any (·.mask.switched)) :
      Step env w (registered env (.bare r text mask) w)
  | describe (w : World) (batch : Batch) (f : Finding) (isExternal : Bool) (text : Status)
      (h : w.state.cache.get? f.resource = none) :
      Step env w
        (described env batch f (w.state.cache.nearestAbove? f.resource) isExternal text w)
  | ensure (w : World) (container : Resource) :
      Step env w
        { w with state := { w.state with cache := w.state.cache.ensureBucket container } }
  | clear (w : World) (h : env.options.cacheEnabled = false) :
      Step env w { w with state := { w.state with cache := {} } }
  | leave (w : World) (job : FetchJob) : Step env w { w with jobs := w.jobs ++ [job] }

/-! ### Turns -/

/-- The record with which a scan registers a node. -/
def scanned (env : Env) (origin : Resource) (isLinked : Bool) (node : Resource) (scan : Scan)
    (w : World) : Record :=
  let known := w.state.cache.get? origin
  let found := unversioned env origin isLinked known (w.state.cache.nearestAbove? origin)
  let above := w.state.cache.nearestAbove? node
  let text := scannedText env origin node found above
  .bare node text (scannedMask env origin node scan text known above)

/-- The text status that a finding is described with, given the reported one and the record of the
nearest container above. -/
def settled (env : Env) (f : Finding) (reported : Status) (above : Option Record) : Status :=
  let text :=
    if reported = .deleted && env.disk.isOccupied f.entry.path then .preReplaced else reported
  let text :=
    if env.host.isLinked f.resource then .linked
    else if text ≠ .obstructed && f.entry.text = .unversioned then
      delegated env f.resource above .new
    else text
  if text = .new && f.kind = .dir && env.disk.hasMetadata env.options.metadata f.entry.path then
    .obstructed
  else text

/-- The text status that a finding is described with in a world. -/
def describedText (env : Env) (f : Finding) (w : World) : Status :=
  settled env f (reportedText f.entry) (w.state.cache.nearestAbove? f.resource)

/-- The single steps of a lookup, with the records that they write: what is opaque or mounts a
working copy is ignored, a node of a scan takes its record from what is above, and a finding takes
the record that its entry describes. -/
inductive Turn (env : Env) : World → World → Prop
  | ask (w : World) (call : Backend.Call) : Turn env w { w with calls := call :: w.calls }
  | ignore (w : World) (r : Resource) (mask : Mask) (h : mask.switched = false) :
      Turn env w (registered env (.bare r .ignored mask) w)
  | scan (w : World) (origin : Resource) (isLinked : Bool) (node : Resource) (scan : Scan) :
      Turn env w (registered env (scanned env origin isLinked node scan w) w)
  | describe (w : World) (batch : Batch) (f : Finding) (isExternal : Bool)
      (h : w.state.cache.get? f.resource = none) :
      Turn env w (described env batch f (w.state.cache.nearestAbove? f.resource) isExternal
        (describedText env f w) w)
  | ensure (w : World) (container : Resource) :
      Turn env w
        { w with state := { w.state with cache := w.state.cache.ensureBucket container } }
  | clear (w : World) (h : env.options.cacheEnabled = false) :
      Turn env w { w with state := { w.state with cache := {} } }
  | leave (w : World) (job : FetchJob) : Turn env w { w with jobs := w.jobs ++ [job] }

/-- A turn is a step, whatever it records. -/
theorem Turn.step (h : Turn env w w') : Step env w w' := by
  cases h with
  | ask call => exact .ask _ call
  | ignore r mask hmask => exact .plain _ r .ignored mask (by simp [hmask])
  | scan origin isLinked node scan => exact .plain _ node _ _ fun h => h
  | describe batch f isExternal hnew => exact .describe _ batch f isExternal _ hnew
  | ensure container => exact .ensure _ container
  | clear hdisabled => exact .clear _ hdisabled
  | leave job => exact .leave _ job

/-- The turns that ask or write a record. -/
inductive Write (env : Env) : World → World → Prop
  | ask (w : World) (call : Backend.Call) : Write env w { w with calls := call :: w.calls }
  | ignore (w : World) (r : Resource) (mask : Mask) (h : mask.switched = false) :
      Write env w (registered env (.bare r .ignored mask) w)
  | scan (w : World) (origin : Resource) (isLinked : Bool) (node : Resource) (scan : Scan) :
      Write env w (registered env (scanned env origin isLinked node scan w) w)
  | describe (w : World) (batch : Batch) (f : Finding) (isExternal : Bool)
      (h : w.state.cache.get? f.resource = none) :
      Write env w (described env batch f (w.state.cache.nearestAbove? f.resource) isExternal
        (describedText env f w) w)

/-- What asks or writes a record is a turn. -/
theorem Write.turn (h : Write env w w') : Turn env w w' := by
  cases h with
  | ask call => exact .ask _ call
  | ignore r mask hmask => exact .ignore _ r mask hmask
  | scan origin isLinked node scan => exact .scan _ origin isLinked node scan
  | describe batch f isExternal hnew => exact .describe _ batch f isExternal hnew

/-- Describing a finding makes no request. -/
theorem calls_described (batch : Batch) (f : Finding) (above : Option Record) (isExternal : Bool)
    (text : Status) (w : World) :
    (described env batch f above isExternal text w).calls = w.calls := by
  change (noted _ _ w).calls = w.calls
  unfold noted
  split <;> rfl

/-- What has been asked stays asked. -/
theorem Turn.calls (h : Turn env w w') : w.calls <:+ w'.calls := by
  cases h with
  | ask call => exact List.suffix_cons _ _
  | ignore => exact List.suffix_rfl
  | scan => exact List.suffix_rfl
  | describe => exact (calls_described _ _ _ _ _ _).symm ▸ List.suffix_rfl
  | ensure => exact List.suffix_rfl
  | clear => exact List.suffix_rfl
  | leave => exact List.suffix_rfl

/-- Along turns requests are added to those that were made before. -/
theorem calls_of_moves {x : Action α} (hx : Moves (Turn env) x) (w : World) :
    w.calls <:+ (x.run w).2.calls := by
  have hturns := hx w
  generalize (x.run w).2 = w' at hturns
  induction hturns with
  | refl => exact List.suffix_rfl
  | tail _ hlast ih => exact ih.trans hlast.calls

/-- What an action asks first is asked, whatever comes after it. -/
theorem calls_bind {x : Action α} {f : α → Action β} (hf : ∀ a, Moves (Turn env) (f a))
    (w : World) : (x.run w).2.calls <:+ ((x >>= f).run w).2.calls := by
  rw [run_bind]
  rcases x.run w with ⟨e | a, w'⟩
  · exact List.suffix_rfl
  · exact calls_of_moves (hf a) w'

/-! ### Reading and asking -/

/-- The action only looks at the world, and does not fail. -/
def Reads (x : Action α) : Prop := ∀ w, ∃ a, x.run w = (.ok a, w)

/-- The action may fail, but all it changes is that it asks the backend. -/
def Asks (x : Action α) : Prop :=
  ∀ w, ∃ calls, (x.run w).2 = { w with calls := calls ++ w.calls }

namespace Reads

/-- A value without an action only looks at the world. -/
theorem pure (a : α) : Reads (pure a : Action α) := fun _ => ⟨a, rfl⟩

/-- What only looks at the world moves nothing. -/
theorem moves {x : Action α} (hx : Reads x) : Moves E x := by
  intro w
  obtain ⟨a, ha⟩ := hx w
  rw [ha]

/-- What only looks at the world asks for nothing. -/
theorem asks {x : Action α} (hx : Reads x) : Asks x := by
  intro w
  obtain ⟨a, ha⟩ := hx w
  exact ⟨[], by rw [ha]; rfl⟩

end Reads

namespace Asks

/-- A value without an action asks for nothing. -/
theorem pure (a : α) : Asks (pure a : Action α) := (Reads.pure a).asks

/-- A failure asks for nothing. -/
theorem throw (e : Error) : Asks (throw e : Action α) := fun _ => ⟨[], rfl⟩

/-- One action after another asks if each does. -/
theorem bind {x : Action α} {f : α → Action β} (hx : Asks x) (hf : ∀ a, Asks (f a)) :
    Asks (x >>= f) := by
  intro w
  obtain ⟨calls, hcalls⟩ := hx w
  rw [run_bind]
  rcases hrun : x.run w with ⟨e | a, w'⟩ <;> rw [hrun] at hcalls
  · exact ⟨calls, hcalls⟩
  · obtain ⟨more, hmore⟩ := hf a w'
    obtain rfl : w' = _ := hcalls
    exact ⟨more ++ calls, by rw [hmore, List.append_assoc]⟩

/-- A choice asks if both branches do. -/
theorem ite {c : Prop} [Decidable c] {x y : Action α} (hx : Asks x) (hy : Asks y) :
    Asks (if c then x else y) := by
  split
  · exact hx
  · exact hy

/-- Asking is a sequence of steps. -/
theorem moves {x : Action α} (hx : Asks x) : Moves (Write env) x := by
  have hcalls : ∀ (w : World) (calls : List Backend.Call),
      ReflTransGen (Write env) w { w with calls := calls ++ w.calls } := by
    intro w calls
    induction calls with
    | nil => exact .refl
    | cons call calls ih => exact ih.tail (.ask _ call)
  intro w
  obtain ⟨calls, h⟩ := hx w
  rw [h]
  exact hcalls w calls

/-- What comes after asking starts from the same state. -/
theorem bindFrom {x : Action α} {f : α → Action β} (hx : Asks x)
    (hf : ∀ a w', w'.state = w.state → MovesFrom (Write env) w' (f a)) :
    MovesFrom (Write env) w (x >>= f) := by
  have hmoves : ReflTransGen (Write env) w (x.run w).2 := hx.moves w
  obtain ⟨calls, hcalls⟩ := hx w
  unfold MovesFrom
  rw [run_bind]
  rcases hrun : x.run w with ⟨e | a, w'⟩ <;> rw [hrun] at hmoves hcalls
  · exact hmoves
  · exact hmoves.trans (hf a w' (by rw [show w' = _ from hcalls]))

end Asks

/-- A status request changes nothing else. -/
theorem asks_askStatus (path : Path) (depth : Backend.Depth) (options : Backend.Options) :
    Asks (askStatus env path depth options) :=
  fun _ => ⟨[_], rfl⟩

/-- A request for metadata changes nothing else. -/
theorem asks_askInfo (reference : Backend.Reference) (depth : Backend.Depth) :
    Asks (askInfo env reference depth) :=
  fun _ => ⟨[_], rfl⟩

/-- Looking up a record gives what is cached. -/
theorem run_cached (r : Resource) (w : World) :
    (cached r).run w = (.ok (w.state.cache.get? r), w) := rfl

/-- Looking up the record above gives the nearest that is cached. -/
theorem run_cachedAbove (r : Resource) (w : World) :
    (cachedAbove r).run w = (.ok (w.state.cache.nearestAbove? r), w) := rfl

/-- Looking up a record only looks. -/
theorem reads_cached (r : Resource) : Reads (cached r) := fun w => ⟨_, run_cached r w⟩

/-- Looking up the record above only looks. -/
theorem reads_cachedAbove (r : Resource) : Reads (cachedAbove r) :=
  fun w => ⟨_, run_cachedAbove r w⟩

/-! ### Unversioned nodes -/

/-- Registering a node of a scan writes its record. -/
theorem moves_registerUnversioned (origin : Resource) (isLinked : Bool) (node : Resource)
    (scan : Scan) : Moves (Write env) (registerUnversioned env origin isLinked node scan) := by
  intro w
  have hrun : ((registerUnversioned env origin isLinked node scan).run w).2 =
      registered env (scanned env origin isLinked node scan w) w := rfl
  rw [hrun]
  exact .single (.scan w origin isLinked node scan)

/-- A visit writes records one after the other. -/
theorem moves_visit (origin : Resource) (isLinked : Bool) (levels : Nat) (node : Resource)
    (scan : Scan) : Moves (Write env) (visit env origin isLinked levels node scan) := by
  induction levels generalizing node scan with
  | zero =>
    rw [visit]
    refine .ite (.pure _) (.bind (moves_registerUnversioned origin isLinked node scan) ?_)
    exact fun scan => .pure _
  | succ levels ih =>
    rw [visit]
    refine .ite (.pure _) (.bind (moves_registerUnversioned origin isLinked node scan) ?_)
    exact fun scan => .ite (.foldlM (fun scan m => ih m scan) _ _) (.pure _)

/-- A scan writes records one after the other. -/
theorem moves_scanUnversioned (r : Resource) (isLinked : Bool) (depth : Depth) :
    Moves (Write env) (scanUnversioned env r isLinked depth) :=
  .bind (moves_visit r isLinked _ r {}) fun _ => .pure _

/-! ### Batches -/

/-- To fetch conflicts changes nothing else. -/
theorem asks_fetchConflicts (path : Path) : Asks (fetchConflicts env path) := by
  refine .bind (asks_askInfo _ _) fun answer => ?_
  split
  · exact .pure _
  · exact .throw _
  · exact .pure _

/-- To ask about an external changes nothing else. -/
theorem asks_queryExternal (path : Path) : Asks (queryExternal env path) := by
  refine .bind (asks_askStatus _ _ _) fun answer => ?_
  split
  · exact .pure _
  · exact .throw _
  · exact .pure _

/-- To ask a container for its externals changes nothing else. -/
theorem asks_isExternalOf (container : Resource) (path : Path) :
    Asks (isExternalOf env container path) := by
  unfold isExternalOf
  split
  · exact .pure _
  refine .bind (asks_askStatus _ _ _) fun answer => ?_
  split
  · exact .pure _
  · exact .throw _
  · exact .pure _

/-- To settle an entry changes nothing else. -/
theorem asks_settle (batch : Batch) (project : Resource) (isFirst : Bool) (entry : Entry) :
    Asks (settle env batch project isFirst entry) := by
  rw [settle_eq]
  exact .ite (.bind (asks_fetchConflicts _) fun conflicts => .pure _) (.pure _)

/-- The text status that is settled on depends on the nearest container above only. -/
theorem run_settledText (f : Finding) (reported : Status) (w : World) :
    (settledText env f reported).run w =
      (.ok (settled env f reported (w.state.cache.nearestAbove? f.resource)), w) := by
  unfold settledText settled
  simp only
  have hend : ∀ text : Status,
      (if text = .new && f.kind = .dir &&
        env.disk.hasMetadata env.options.metadata f.entry.path then
        (pure .obstructed : Action Status)
      else pure text).run w =
      (.ok (if text = .new && f.kind = .dir &&
        env.disk.hasMetadata env.options.metadata f.entry.path then .obstructed else text), w) := by
    intro text
    split <;> rfl
  generalize (if reported = .deleted && env.disk.isOccupied f.entry.path then Status.preReplaced
    else reported) = text
  split
  · exact hend .linked
  split
  · exact hend _
  · exact hend text

/-- **What committing a finding does**: nothing, or mark a new directory that mounts a working copy,
or describe the node with the text status that is settled on. -/
theorem run_commit_cases (env : Env) (batch : Batch) (f : Finding) (above : Option Record)
    (isExternal : Bool) (w : World) :
    (commit env batch f above isExternal).run w = (.ok none, w) ∨
    (reportedText f.entry = .new ∧ f.kind = .dir ∧ env.nestsMetadata f.resource) ∧
      (commit env batch f above isExternal).run w =
        (.ok none, registered env (.bare f.resource .ignored { external := true }) w) ∨
    (commit env batch f above isExternal).run w =
      (.ok (some (env.committed (recordOf batch f above isExternal (describedText env f w)))),
        described env batch f above isExternal (describedText env f w) w) := by
  unfold commit
  simp only
  split
  · exact Or.inl rfl
  split
  next hmounts => exact Or.inr (Or.inl ⟨by simpa [and_assoc] using hmounts, rfl⟩)
  refine Or.inr (Or.inr ?_)
  have hmask : (recordOf batch f above isExternal (describedText env f w)).mask =
      maskOf batch f above isExternal := rfl
  split
  next hswitched =>
    rw [described, noted, hmask, if_pos hswitched]
    exact run_bind_ok (run_settledText f _ _)
  next hswitched =>
    rw [described, noted, hmask, if_neg hswitched]
    exact run_bind_ok (run_settledText f _ w)

/-- A finding is left alone, marked as a mounted working copy, or described. -/
theorem run_commit_settled (env : Env) (batch : Batch) (f : Finding) (above : Option Record)
    (isExternal : Bool) (w : World) :
    (commit env batch f above isExternal).run w = (.ok none, w) ∨
    (commit env batch f above isExternal).run w =
      (.ok none, registered env (.bare f.resource .ignored { external := true }) w) ∨
    (commit env batch f above isExternal).run w =
      (.ok (some (env.committed (recordOf batch f above isExternal (describedText env f w)))),
        described env batch f above isExternal (describedText env f w) w) :=
  (run_commit_cases env batch f above isExternal w).imp_right fun h => h.imp_left And.right

/-- What committing a finding can do, whatever text status is settled on. -/
theorem run_commit (env : Env) (batch : Batch) (f : Finding) (above : Option Record)
    (isExternal : Bool) (w : World) :
    (commit env batch f above isExternal).run w = (.ok none, w) ∨
    (commit env batch f above isExternal).run w =
      (.ok none, registered env (.bare f.resource .ignored { external := true }) w) ∨
    ∃ text, (commit env batch f above isExternal).run w =
      (.ok (some (env.committed (recordOf batch f above isExternal text))),
        described env batch f above isExternal text w) :=
  (run_commit_settled env batch f above isExternal w).imp_right fun h =>
    h.imp_right fun h => ⟨_, h⟩

/-- What has no record yet is described by one turn. -/
theorem movesFrom_commit {batch : Batch} {f : Finding} {isExternal : Bool}
    (hnew : w.state.cache.get? f.resource = none) :
    MovesFrom (Write env) w
      (commit env batch f (w.state.cache.nearestAbove? f.resource) isExternal) := by
  unfold MovesFrom
  rcases run_commit_settled env batch f (w.state.cache.nearestAbove? f.resource) isExternal w with
    h | h | h <;> rw [h]
  · exact .single (.ignore w f.resource { external := true } rfl)
  · exact .single (.describe w batch f isExternal hnew)

/-- To ask whether the first entry is an external changes nothing else. -/
theorem asks_isExternalRoot (batch : Batch) (f : Finding) :
    Asks (isExternalRoot env batch f) := by
  unfold isExternalRoot
  refine .ite ?_ (.pure _)
  split
  · exact .pure _
  refine .ite (.pure _) (.bind (reads_cached _).asks fun record => ?_)
  exact .ite (.pure _) (asks_isExternalOf _ _)

/-- A finding is recorded as it is described, and before that at most asked about. -/
theorem movesFrom_recordFinding {batch : Batch} {isFirst : Bool} {f : Finding}
    (hnew : w.state.cache.get? f.resource = none) :
    MovesFrom (Write env) w (recordFinding env batch isFirst f) := by
  have hcommit : ∀ (g : Finding) (isExternal : Bool) (w' : World), g.resource = f.resource →
      w'.state = w.state → MovesFrom (Write env) w'
        (commit env batch g (w.state.cache.nearestAbove? f.resource) isExternal) := by
    intro g isExternal w' hg hw
    rw [← hg, ← hw]
    exact movesFrom_commit (by rw [hw, hg, hnew])
  unfold MovesFrom recordFinding
  rw [run_bind_ok (run_cachedAbove f.resource w)]
  split
  · exact .single (.ignore w f.resource { forbidden := true } rfl)
  split
  · refine (asks_queryExternal _).bindFrom fun fresh w' hw => ?_
    split
    · exact hcommit _ true w' rfl hw
    · exact .single (.ignore w' f.resource { external := true } rfl)
  · split
    · exact (asks_isExternalRoot batch f).bindFrom fun isExternal w' hw =>
        hcommit f isExternal w' rfl hw
    · exact hcommit f false w rfl rfl

/-- Working through an entry asks and writes records. -/
theorem moves_fillEntry (batch : Batch) (project : Resource) (isFirst : Bool) (entry : Entry)
    (p : Progress) : Moves (Write env) (fillEntry env batch project isFirst entry p) := by
  refine .bind (asks_settle batch project isFirst entry).moves fun finding => ?_
  cases finding with
  | none => exact .pure _
  | some f =>
    intro w
    rw [run_bind_ok (run_cached f.resource w)]
    simp only
    split
    · exact .refl
    next hnew =>
      have hrecord : MovesFrom (Write env) w (recordFinding env batch isFirst f) :=
        movesFrom_recordFinding hnew
      exact hrecord.bind fun _ => .bind (.pure _) fun _ => .pure _

/-- Working through entries asks and writes records. -/
theorem moves_fillEntries (batch : Batch) (project : Resource) (isFirst : Bool)
    (entries : List Entry) (p : Progress) :
    Moves (Write env) (fillEntries env batch project isFirst entries p) := by
  induction entries generalizing isFirst p with
  | nil => exact .pure p
  | cons e es ih => exact .bind (moves_fillEntry batch project isFirst e p) fun p => ih false p

/-- Working through a batch asks and writes records. -/
theorem moves_fill (batch : Batch) : Moves (Write env) (fill env batch) := by
  unfold fill
  split
  · exact .pure _
  · exact .bind (moves_fillEntries batch _ true batch.entries {}) fun p => .pure _

/-! ### Lookups -/

/-- To ask for entries changes nothing else. -/
theorem asks_askEntries (path : Path) (depth : Backend.Depth) :
    Asks (askEntries env path depth) := by
  refine .bind (asks_askStatus _ _ _) fun answer => ?_
  split
  · exact .pure _
  · exact .pure _
  · exact .pure _
  · exact .pure _
  · exact .throw _

/-- **What asking for entries does**: one request is made, and its entries come arranged. A place
that needs a cleanup has one entry, and one outside of working copies has none. -/
theorem run_askEntries (env : Env) (path : Path) (depth : Backend.Depth) (w : World) :
    let options : Backend.Options := { unchanged := true, ignored := true }
    let answer := env.backend.status w.calls path depth options
    ∃ result, (askEntries env path depth).run w =
        (result, { w with calls := .status path depth options :: w.calls }) ∧
      ∀ entries, result = .ok entries →
        (∃ found, answer = .ok found ∧ entries = Entry.arrange found) ∨
        (∃ place, answer = .error (.cleanupRequired place) ∧ entries = [Entry.needsCleanup path]) ∨
        entries = [] := by
  intro options answer
  have hask : (askStatus env path depth options).run w =
      (.ok answer, { w with calls := .status path depth options :: w.calls }) := rfl
  rw [askEntries, run_bind_ok hask]
  rcases hanswer : answer with failure | found
  · cases failure with
    | cleanupRequired place =>
      exact ⟨_, rfl, fun entries h => .inr (.inl ⟨place, rfl, (Except.ok.inj h).symm⟩)⟩
    | notWorkingCopy place =>
      exact ⟨_, rfl, fun entries h => .inr (.inr (Except.ok.inj h).symm)⟩
    | pathNotFound place =>
      exact ⟨_, rfl, fun entries h => .inr (.inr (Except.ok.inj h).symm)⟩
    | cancelled => exact ⟨_, rfl, fun entries h => nomatch h⟩
    | failed reason => exact ⟨_, rfl, fun entries h => nomatch h⟩
  · exact ⟨_, rfl, fun entries h => .inl ⟨found, rfl, (Except.ok.inj h).symm⟩⟩

/-- A load from the backend consists of turns. -/
theorem turns_loadVersioned (r parent : Resource) (binding : Binding) (depth : Depth) :
    Moves (Turn env) (loadVersioned env r parent binding depth) := by
  have hwrite : ∀ {α : Type} {x : Action α}, Moves (Write env) x → Moves (Turn env) x :=
    fun hx => hx.mono fun _ _ => Write.turn
  unfold loadVersioned
  simp only
  split
  · refine .bind (hwrite (asks_askEntries _ _).moves) fun entries => ?_
    refine .bind (hwrite (moves_fill _)) fun found => ?_
    exact .optional (fun _ w => .single (.ensure w _)) (.optional (fun _ w => .single (.leave w _))
      (.pure _))
  · exact .pure _

/-! What is composed of loads and scans moves a world as these do. -/

section Loads

variable {lookupParent load : Action Record}

/-- To load what is known moves as the lookup of the parent and the load do. -/
theorem moves_loadKnown {r parent : Resource} {binding : Binding} {depth : Depth}
    (hparent : Moves E lookupParent) (hload : Moves E (loadVersioned env r parent binding depth)) :
    Moves E (loadKnown env lookupParent r parent binding depth) := by
  have hasked : ∀ isVersioned : Bool, Moves E
      (if isVersioned then loadVersioned env r parent binding depth else pure none) := fun _ =>
    .ite hload (.pure _)
  unfold loadKnown
  simp only
  refine .ite (.ite (.bind (.pure _) hasked) (.bind hparent fun above => ?_)) (.pure _)
  exact .bind (.pure _) hasked

/-- What is known or else scanned moves as the scan does. -/
theorem moves_orScan {r : Resource} {depth : Depth}
    (hscan : Moves E (scanUnversioned env r (env.host.isLinked r) depth)) (known : Option Record) :
    Moves E (orScan env r depth known) := by
  cases known with
  | none => exact hscan
  | some record => exact .ite hscan (.pure _)

/-- A load whose failure is put aside moves as the load does. -/
theorem moves_orInvalid (hload : Moves E load) (r : Resource) : Moves E (orInvalid r load) := by
  refine .tryCatch hload fun e => ?_
  split
  · exact .throw _
  · exact .pure _
  · exact .throw _

/-- What is cached or else loaded moves as the load does. -/
theorem moves_cachedOr (hload : Moves E load) (r : Resource) : Moves E (cachedOr env r load) := by
  refine .ite (.bind (reads_cached r).moves fun known => ?_) hload
  split
  · exact .pure _
  · exact hload

/-- A load moves as the lookup of the parent, the load from the backend and the scan do. -/
theorem moves_loadSubtree {r parent : Resource}
    (hload : ∀ binding depth, Moves E (loadVersioned env r parent binding depth))
    (hscan : ∀ isLinked depth, Moves E (scanUnversioned env r isLinked depth))
    (hclear : env.options.cacheEnabled = false → Moves E (change fun s => { s with cache := {} }))
    (hparent : Moves E lookupParent) (depth : Depth) :
    Moves E (loadSubtree env lookupParent r parent depth) := by
  unfold loadSubtree
  split
  · exact .pure _
  next binding _ =>
    refine .ite (.pure _) (.optional (fun hdisabled => hclear (by simpa using hdisabled)) ?_)
    exact .bind (moves_loadKnown hparent (hload binding _)) (moves_orScan (hscan _ _))

variable (hload : ∀ r parent binding depth, Moves E (loadVersioned env r parent binding depth))
  (hscan : ∀ r isLinked depth, Moves E (scanUnversioned env r isLinked depth))
  (hclear : env.options.cacheEnabled = false →
    Moves E (change fun s => { s with cache := {} }))

include hload hscan hclear

/-- A reload moves as its parts do, whatever the ancestors are. -/
theorem moves_reloadBelow (above : List Resource) (r : Resource) (depth : Depth) :
    Moves E (reloadBelow env above r depth) := by
  induction above generalizing r depth with
  | nil => exact .pure _
  | cons parent above ih =>
    refine .ite (moves_orInvalid ?_ r) (.pure _)
    exact moves_loadSubtree (hload r parent) (hscan r) hclear
      (moves_cachedOr (ih parent .one) parent) depth

/-- A reload moves as its parts do. -/
theorem moves_reload (r : Resource) (depth : Depth) : Moves E (reload env r depth) :=
  moves_reloadBelow hload hscan hclear _ r depth

/-- A lookup moves as the parts of a reload do. -/
theorem moves_lookup_of (r : Resource) (depth : Depth) : Moves E (lookup env r depth) :=
  moves_cachedOr (moves_reload hload hscan hclear r depth) r

end Loads

/-- A scan consists of turns. -/
theorem turns_scanUnversioned (r : Resource) (isLinked : Bool) (depth : Depth) :
    Moves (Turn env) (scanUnversioned env r isLinked depth) :=
  (moves_scanUnversioned r isLinked depth).mono fun _ _ => Write.turn

/-- To clear the cache is a turn, where there is none. -/
theorem turns_clear (hdisabled : env.options.cacheEnabled = false) :
    Moves (Turn env) (change fun s => { s with cache := {} }) :=
  fun w => .single (.clear w hdisabled)

/-- A reload consists of turns. -/
theorem turns_reload (r : Resource) (depth : Depth) : Moves (Turn env) (reload env r depth) :=
  moves_reload turns_loadVersioned turns_scanUnversioned turns_clear r depth

/-- **A lookup takes only these turns**, whether it succeeds or fails. -/
theorem turns_lookup (r : Resource) (depth : Depth) : Moves (Turn env) (lookup env r depth) :=
  moves_lookup_of turns_loadVersioned turns_scanUnversioned turns_clear r depth

/-- **A lookup has only these effects**, whether it succeeds or fails. -/
theorem moves_lookup (r : Resource) (depth : Depth) : Moves (Step env) (lookup env r depth) :=
  (turns_lookup r depth).mono fun _ _ => Turn.step

end Lookup
end StatusCache
