/-
# Persisted nodes come back whole

The record of a repository node keeps the identifier of its location and the URL, and nothing of a
wrapper. When it is read, the location is looked up and the URL is wrapped anew. A node that a
storage has handed out comes back all the same (`node_comes_back`): its URL was settled when the node
was handed out (`Obtained.kept`), and no operation unsettles it, but for one that registers its
location anew or drops it (`Kept.run`). Reading the record then changes nothing.
-/

import StatusCache.Backend.Fixed
import StatusCache.Proofs.Cache.Externals
import StatusCache.Proofs.Persisted.Node
import StatusCache.Proofs.Storage.Operation
import StatusCache.Workspace

open Relation (ReflTransGen)

namespace StatusCache

namespace Storage

variable {env : Env} {s s' : Session} {st st' : State} {l found : Location} {url : String}
  {n : RepoNode}

/-! ### Settled URLs -/

/-- Nothing but a wrapper for a URL changes the wrappers. -/
theorem externals_of_alters (h : Alters env st st') : st'.externals = st.externals ∨
    ∃ l url isFile, st'.externals = (st.externals.wrap l url isFile).2 := by
  cases h with
  | wrap _ l url isFile => exact .inr ⟨l, url, isFile, rfl⟩
  | forget => exact .inl rfl
  | observe => exact .inl rfl
  | refresh _ rs depth =>
    left
    induction rs generalizing st with
    | nil => rfl
    | cons r rs ih => exact ih
  | look hhost hturn =>
    left
    cases hturn with
    | describe batch f isExternal hnew =>
      unfold Lookup.described Lookup.noted
      simp only
      split <;> rfl
    | _ => rfl

/-- What wrapping keeps of the wrappers, every change of the shared state keeps. -/
theorem externals_induction {I : Externals → Prop}
    (hwrap : ∀ x l url isFile, I x → I (x.wrap l url isFile).2) (h : Alters env st st')
    (hst : I st.externals) : I st'.externals := by
  rcases externals_of_alters h with hsame | ⟨l, url, isFile, hnew⟩
  · rw [hsame]
    exact hst
  · rw [hnew]
    exact hwrap _ l url isFile hst

/-- An operation neither registers a location of this identifier nor drops it. -/
def Operation.Spares (id : String) (op : Operation) : Prop :=
  (∀ l, op = .addLocation l → l.id ≠ id) ∧ op ≠ .forgetLocation id

/-- A location is known, and one of its URLs is settled. -/
structure Kept (l : Location) (url : String) (found : Location) (s : Session) : Prop where
  known : s.storage.locations.get? l.id = some l
  settled : s.storage.state.externals.Settles l url found

/-- **A settled URL stays so**, unless its location is registered anew or dropped. -/
theorem Kept.run (h : Kept l url found s) {op : Operation} (hop : op.Spares l.id) :
    Kept l url found (op.run env s) := by
  obtain ⟨hknown, hsettled⟩ := h
  rcases op.run_cases env s with ⟨l', rfl, hlocations, hstate⟩ | ⟨id, rfl, hlocations, hstate⟩ |
    ⟨hlocations, halters⟩
  · refine ⟨?_, ?_⟩
    · rw [hlocations, Table.get?_insert, if_neg (hop.1 l' rfl)]
      exact hknown
    · rw [hstate]
      exact hsettled
  · have hid : id ≠ l.id := fun heq => hop.2 (heq ▸ rfl)
    refine ⟨?_, ?_⟩
    · rw [hlocations, Table.get?_erase, if_neg hid.symm]
      exact hknown
    · rw [hstate]
      exact hsettled.forget hid
  · refine ⟨by rw [hlocations]; exact hknown, ?_⟩
    exact alters_induction (I := fun st => st.externals.Settles l url found)
      (fun _ _ => externals_induction (I := fun x => x.Settles l url found)
        fun _ l' url' isFile h => h.wrap l' url' isFile) halters hsettled

/-- Wrappers have the identifiers of their locations, in every session. -/
theorem tidy_run (config : Config) (now : Int) (ops : List (Env × Operation)) :
    (({ storage := make config now } : Session).run ops).storage.state.externals.Tidy := by
  have hnew : (make config now).state.externals.Tidy := fun id w hw => nomatch hw
  refine Session.run_induction (I := fun s => s.storage.state.externals.Tidy)
    (fun env op s _ hs => ?_) hnew
  exact op.state_induction (I := fun st => st.externals.Tidy)
    (fun _ _ => externals_induction fun _ l url isFile h => h.wrap l url isFile)
    (fun _ id h => h.forget id) hs

/-! ### Nodes that are handed out -/

/-- A node of a location is handed out, leading from one session to another. -/
inductive Obtained (l : Location) (url : String) : RepoNode → Session → Session → Prop
  | atUrl {n : RepoNode} {s s' : Session} {isFile : Bool}
      (h : (nodeAtUrl l url isFile).run s = (.ok n, s')) : Obtained l url n s s'
  | resolved {n : RepoNode} {s s' : Session} {env : Env} {peg revision : Option Revision}
      (h : (resolveUrl env l url peg revision).run s = (.ok (some n), s')) : Obtained l url n s s'

/-- The storage after a URL of a location is wrapped. -/
def wrapped (st : Storage) (l : Location) (url : String) (isFile : Bool) : Storage :=
  { st with state := { st.state with externals := (st.state.externals.wrap l url isFile).2 } }

/-- Wrapping answers with the wrapper and keeps it. -/
theorem run_wrap_eq (l : Location) (url : String) (isFile : Bool) (s : Session) :
    (wrap l url isFile).run s = (.ok (s.storage.state.externals.wrap l url isFile).1,
      { s with storage := wrapped s.storage l url isFile }) := rfl

/-- Handing out a node wraps its URL, and does nothing else to the storage. -/
theorem Obtained.eq_wrap (h : Obtained l url n s s') : ∃ isFile, n.url = url ∧
    n.location = (s.storage.state.externals.wrap l url isFile).1 ∧
      s'.storage = wrapped s.storage l url isFile := by
  cases h with
  | @atUrl isFile h =>
    rw [nodeAtUrl, run_bind_ok (run_wrap_eq l url isFile s)] at h
    cases h
    exact ⟨isFile, rfl, rfl, rfl⟩
  | @resolved env peg revision h =>
    refine ⟨false, ?_⟩
    rw [resolveUrl, run_bind_ok (run_wrap_eq l url false s)] at h
    generalize wrapped s.storage l url false = st at h ⊢
    have hset : ∀ t t' : Session, (set t' : Action PUnit).run t = (.ok ⟨⟩, t') := fun _ _ => rfl
    rw [run_bind_ok (run_get _), run_bind_ok (hset _ _)] at h
    split at h
    · cases h
    split at h
    · cases h
    split at h <;> cases h <;> exact ⟨rfl, rfl, rfl⟩

/-- **The URL of a node is settled** when the node is handed out: it leads to the location that the
node has. -/
theorem Obtained.kept (h : Obtained l url n s s') (hl : s.storage.locations.get? l.id = some l) :
    n.url = url ∧ Kept l url n.location s' := by
  obtain ⟨isFile, hurl, hlocation, hstorage⟩ := h.eq_wrap
  refine ⟨hurl, ?_, ?_⟩
  · rw [hstorage]
    exact hl
  · rw [hstorage, hlocation]
    exact Externals.settles_wrap _ l url isFile

/-! ### Reading a record -/

/-- The record of a node whose URL is settled reads as the node, and reading it changes nothing. -/
theorem Kept.run_nodeOfBytes (h : Kept l n.url n.location s) (hid : n.location.id = l.id)
    (hseparator : ';' ∉ l.id.toList) (habsolute : Url.isAbsolute n.url)
    (hselected : n.selected.Persistable) (hpeg : n.peg.Persistable) :
    (nodeOfBytes (Persisted.writeNode n)).run s = (.ok (some n), s) := by
  have hwrap : (wrap l n.url !n.isContainer).run s = (.ok n.location, s) := by
    rw [run_wrap_eq, wrapped, h.settled]
  rw [nodeOfBytes, Persisted.readNode_writeNode (hid ▸ hseparator) hselected hpeg]
  simp only
  rw [run_bind_ok (run_get s)]
  simp only [hid, h.known, habsolute, if_true]
  rw [run_bind_ok hwrap]
  rfl

/-- **A persisted node comes back whole**, with the very location that it had, wrapped or not.
Whatever a storage has been through, a node that it hands out for an absolute URL of a known location
is read back from its record, at any revisions, after any further operations that neither register
the location anew nor drop it. Reading the record changes nothing. -/
theorem node_comes_back (config : Config) (now : Int) (before after : List (Env × Operation))
    {s s' : Session} (hs : ({ storage := make config now } : Session).run before = s)
    (hl : s.storage.locations.get? l.id = some l) (hid : ';' ∉ l.id.toList)
    (habsolute : Url.isAbsolute url) (hn : Obtained l url n s s')
    {selected peg : Revision} (hselected : selected.Persistable) (hpeg : peg.Persistable)
    (hafter : ∀ env op, (env, op) ∈ after → op.Spares l.id) :
    let node := { n with selected := selected, peg := peg }
    (nodeOfBytes (Persisted.writeNode node)).run (s'.run after) =
      (.ok (some node), s'.run after) := by
  intro node
  obtain ⟨isFile, -, -, hstorage⟩ := hn.eq_wrap
  obtain ⟨rfl, hkept⟩ := hn.kept hl
  have htidy : s'.storage.state.externals.Tidy := by
    rw [hstorage]
    exact (hs ▸ tidy_run config now before).wrap l n.url isFile
  have hnow : Kept l n.url n.location (s'.run after) :=
    Session.run_induction (fun env op t hop ht => ht.run (hafter env op hop)) hkept
  exact Kept.run_nodeOfBytes (n := node) hnow (htidy.id_eq hkept.settled) hid habsolute hselected hpeg

/-- A file outside of the known root. Another foreign file, further up, gets a wrapper of its own
later, which lies above the URL of the first file as well. -/
theorem node_comes_back_foreign :
    let main : Location := { id := "main", url := "http://h/r/app", root := "http://h/r" }
    let other : Location := { id := "other", url := "http://h/s", root := "" }
    let known : Backend.Fixed := {}
    let disk : Disk := { nodes := ⟨[]⟩ }
    let workspace : Workspace := { metadata := ".svn" }
    let env : Env :=
      { backend := known.backend, host := workspace.host disk, disk := disk, now := 0 }
    let before : List (Env × Operation) :=
      [(env, .addLocation main), (env, .nodeAtUrl main "http://x/y" false)]
    let after : List (Env × Operation) :=
      [(env, .nodeAtUrl main "http://e/b.c" true), (env, .addLocation other),
        (env, .forgetLocation "other"), (env, .enableCache false), (env, .shutdown)]
    let s := ({ storage := make {} 0 } : Session).run before
    let node : RepoNode :=
      { location := { id := "main", url := "http://e/lib", root := "http://e/lib", wrapped := true }
        url := "http://e/lib/a.c"
        isContainer := false
        selected := .date 5
        peg := .number 42 }
    let s' := ((nodeAtUrl main "http://e/lib/a.c" true).run s).2
    (nodeOfBytes (Persisted.writeNode node)).run (s'.run after) =
      (.ok (some node), s'.run after) := by
  intro main other known disk workspace env before after s node s'
  have hl : s.storage.locations.get? "main" = some main := by
    unfold s before env workspace disk known main
    decide +kernel
  have hhanded : ((nodeAtUrl main "http://e/lib/a.c" true).run s).1 =
      .ok { node with selected := .head, peg := .head } := by
    unfold s node before env workspace disk known main
    decide +kernel
  have hspares : ∀ e op, (e, op) ∈ after → op.Spares "main" := by
    intro e op hop
    simp only [after, List.mem_cons, List.not_mem_nil, or_false, Prod.mk.injEq] at hop
    rcases hop with ⟨-, rfl⟩ | ⟨-, rfl⟩ | ⟨-, rfl⟩ | ⟨-, rfl⟩ | ⟨-, rfl⟩ <;>
      simp [Operation.Spares, other]
  have hs : ({ storage := make {} 0 } : Session).run before = s := rfl
  have hrun : (nodeAtUrl main "http://e/lib/a.c" true).run s =
      (.ok { node with selected := .head, peg := .head }, s') :=
    Prod.mk.eta.symm.trans (congrArg (·, s') hhanded)
  have habsolute : Url.isAbsolute "http://e/lib/a.c" := by decide +kernel
  have hselected : (Revision.date 5).Persistable := show Text.Number.Fits64 5 by decide
  have hpeg : (Revision.number 42).Persistable :=
    show Text.Number.Fits64 42 ∧ 42 ≠ unknownRevision by decide
  clear_value s' s
  exact node_comes_back {} 0 before after hs hl (by decide) habsolute (.atUrl hrun) hselected hpeg
    hspares

end Storage
end StatusCache
