/-
# Persisted changes read back

Writing a change and reading it again gives the same change, apart from the originator, which
travels as bytes beside it, and from a peg revision that says no more than the revision does
(`readChange_writeChange`). This covers every status with a code, every date, comment and mask, and
every tree conflict with whatever parts of its versions are present.

The mark of absence is itself the written form of three bytes. They are no text, but an originator
may be of any bytes, and of these it is lost (`originator_reads_back_iff`).

The fields of a change are read one by one. None of them can hold the separator, and no text can
be taken for the mark of absence.
-/

import StatusCache.Persisted.Change
import StatusCache.Proofs.Persisted.Node
import StatusCache.Proofs.Text.Raw

namespace StatusCache

open Text.Number (Fits64)

/-- Every number of a change is a signed integer of 64 bits. -/
structure Change.Fits (c : Change) : Prop where
  revision : Fits64 c.record.revision
  date : Fits64 c.record.date
  peg : ∀ n, c.peg = some (.number n) ∨ c.peg = some (.date n) → Fits64 n
  versions : ∀ t ∈ c.record.conflict, ∀ v, v ∈ t.left ∨ v ∈ t.right → Fits64 v.peg

/-- What a persisted change can say: statuses that have a code to read, an author that is neither
the mark of absence nor holds a separator, and one revision for both the content and its base. -/
structure Change.Persistable (c : Change) : Prop where
  text : c.record.text ≠ .internalInvalid
  prop : c.record.prop ≠ .internalInvalid
  author : ∀ a ∈ c.record.author, a ≠ Persisted.null ∧ ';' ∉ a.toList
  base : c.record.baseRevision = c.record.revision

/-- The peg revision that is read back. A number that is the revision of the change itself says
nothing more than none does, and neither does a number beside an unknown revision. -/
def Change.settledPeg (c : Change) : Option Revision :=
  match c.peg with
  | some (.number n) =>
    if n = c.record.revision ∨ c.record.revision = unknownRevision then none
    else some (.number n)
  | peg => peg

namespace Persisted

/-! ### Tree conflicts -/

/-- The version of a conflict that was written is read back. -/
theorem readVersion_writeVersion {v : Option TreeConflict.Version}
    (h : ∀ w ∈ v, Fits64 w.peg) :
    ∃ kind path peg url, writeVersion v = [kind, path, peg, url] ∧
      readVersion kind path peg url = .ok v := by
  cases v with
  | none => exact ⟨null, null, null, null, rfl, rfl⟩
  | some v =>
    refine ⟨_, _, _, _, rfl, ?_⟩
    rw [readVersion, if_neg fun hnull => ofNat_ne_null _ hnull.1, readOptional_text,
      readOptional_text, readId_ofNat (by have := v.kind.id_lt; omega), readInt_ofInt (h v rfl),
      NodeKind.ofId_id]
    rfl

/-- A version takes four fields. -/
theorem length_writeVersion (v : Option TreeConflict.Version) : (writeVersion v).length = 4 := by
  cases v <;> rfl

/-- A conflict takes eleven fields. -/
theorem length_writeConflict (t : Option TreeConflict) : (writeConflict t).length = 11 := by
  cases t <;> simp [writeConflict, length_writeVersion]

/-- The conflict is read back from its place behind the first eleven fields. -/
theorem readConflict_writeConflict {t : Option TreeConflict}
    (h : ∀ u ∈ t, ∀ v, v ∈ u.left ∨ v ∈ u.right → Fits64 v.peg) {first : List String}
    (hfirst : first.length = legacyFields) (last : String) :
    readConflict (first ++ writeConflict t ++ [last]) = .ok t := by
  have hlen : ¬(first ++ writeConflict t ++ [last]).length < fullFields := by
    simp [length_writeConflict, hfirst, legacyFields, fullFields]
  have hget : ∀ i < 11, (first ++ writeConflict t ++ [last]).getD (11 + i) "" =
      (writeConflict t).getD i "" := by
    intro i hi
    rw [List.getD_eq_getElem?_getD, List.getD_eq_getElem?_getD, List.append_assoc,
      List.getElem?_append_right (by rw [hfirst, legacyFields]; omega), hfirst, legacyFields,
      Nat.add_sub_cancel_left, List.getElem?_append_left (by rw [length_writeConflict]; exact hi)]
  -- Only the length and the eleven fields in the middle matter from here on.
  generalize first ++ writeConflict t ++ [last] = fields at hlen hget
  cases t with
  | none => exact if_pos (.inr (hget 0 (by decide)))
  | some t =>
    obtain ⟨lk, lp, lg, lu, hleft, hreadLeft⟩ :=
      readVersion_writeVersion fun v hv => h t rfl v (.inl hv)
    obtain ⟨rk, rp, rg, ru, hright, hreadRight⟩ :=
      readVersion_writeVersion fun v hv => h t rfl v (.inr hv)
    have hfields : writeConflict (some t) =
        [Text.Number.ofNat t.action.id, Text.Number.ofNat t.reason.id,
          Text.Number.ofNat t.operation.id, lk, lp, lg, lu, rk, rp, rg, ru] := by
      simp [writeConflict, hleft, hright]
    rw [hfields] at hget
    have h₁₁ : fields.getD 11 "" = Text.Number.ofNat t.action.id := hget 0 (by decide)
    have h₁₂ : fields.getD 12 "" = Text.Number.ofNat t.reason.id := hget 1 (by decide)
    have h₁₃ : fields.getD 13 "" = Text.Number.ofNat t.operation.id := hget 2 (by decide)
    have hl : readVersion (fields.getD 14 "") (fields.getD 15 "") (fields.getD 16 "")
        (fields.getD 17 "") = .ok t.left := by
      rw [← hreadLeft]
      exact congr (congr (congr (congrArg readVersion (hget 3 (by decide))) (hget 4 (by decide)))
        (hget 5 (by decide))) (hget 6 (by decide))
    have hr : readVersion (fields.getD 18 "") (fields.getD 19 "") (fields.getD 20 "")
        (fields.getD 21 "") = .ok t.right := by
      rw [← hreadRight]
      exact congr (congr (congr (congrArg readVersion (hget 7 (by decide))) (hget 8 (by decide)))
        (hget 9 (by decide))) (hget 10 (by decide))
    unfold readConflict
    simp only [hl, hr, h₁₁, h₁₂, h₁₃]
    rw [if_neg (not_or.2 ⟨hlen, ofNat_ne_null _⟩), readId_ofNat (by have := t.action.id_lt; omega),
      readId_ofNat (by have := t.reason.id_lt; omega),
      readId_ofNat (by have := t.operation.id_lt; omega), TreeConflict.Action.ofId_id,
      TreeConflict.Reason.ofId_id, TreeConflict.Operation.ofId_id]
    rfl

/-! ### Statuses and revisions -/

/-- A status is read back from its code, but for the one that is never written. -/
theorem readStatus_code {s : Status} (h : s ≠ .internalInvalid) : readStatus s.code = .ok s := by
  rw [readStatus, Status.ofCode?_code, if_neg h]

/-- A record in full form has both statuses as fields of their own. -/
theorem readStatuses_full {prop : Status} (h : prop ≠ .internalInvalid) {first : List String}
    (hfirst : first.length = 22) (text : Status) (mask : Mask) :
    readStatuses (first ++ [prop.code]) text mask = .ok (text, prop) := by
  have hlen : (first ++ [prop.code]).length ≥ fullFields := by simp [hfirst, fullFields]
  have hget : (first ++ [prop.code]).getD 22 "" = prop.code := by simp [← hfirst]
  rw [readStatuses, if_pos hlen, hget, readStatus_code h]
  rfl

/-- The peg revision that is read back is the settled one. -/
theorem readPeg_effectivePeg {c : Change} (h : c.Fits) :
    readPeg (Text.Number.ofNat c.effectivePeg.kind.id) (writePegValue c.effectivePeg)
      c.record.revision = c.settledPeg := by
  rw [readPeg, readRevisionKind_ofNat, Change.settledPeg, Change.effectivePeg]
  cases hpeg : c.peg with
  | none =>
    simp only [Option.getD_none, Revision.kind, writePegValue, Text.Number.int64?_ofInt h.revision,
      Option.getD_some]
    rw [if_neg fun hne => hne.1 rfl]
  | some peg =>
    cases peg with
    | number n =>
      simp only [Option.getD_some, Revision.kind, writePegValue,
        Text.Number.int64?_ofInt (h.peg n (.inl hpeg))]
      by_cases hn : n = c.record.revision ∨ c.record.revision = unknownRevision
      · rw [if_pos hn, if_neg (by rcases hn with hn | hn <;> simp [hn])]
      · rw [if_neg hn, if_pos (by simpa [not_or] using hn)]
    | date n =>
      simp only [Option.getD_some, Revision.kind, writePegValue,
        Text.Number.int64?_ofInt (h.peg n (.inr hpeg))]
    | _ => rfl

/-! ### No field holds the separator -/

/-- No code of a status holds the separator. -/
theorem not_mem_code (s : Status) : ';' ∉ s.code.toList := by cases s <;> decide

/-- No peg revision that is written holds the separator. -/
theorem not_mem_writePegValue (r : Revision) : ';' ∉ (writePegValue r).toList := by
  cases r with
  | number n => exact not_mem_ofInt n
  | date n => exact not_mem_ofInt n
  | _ => exact not_mem_ofNat _

/-- No field of a version holds the separator. -/
theorem not_mem_of_mem_writeVersion (v : Option TreeConflict.Version) :
    ∀ f ∈ writeVersion v, ';' ∉ f.toList := by
  have htext : ∀ value : Option String, ';' ∉ (writeOptional (value.map writeText)).toList := by
    intro value
    refine not_mem_writeOptional fun s hs => ?_
    obtain ⟨t, _, rfl⟩ := Option.map_eq_some_iff.1 hs
    exact not_mem_writeText t
  cases v with
  | none =>
    intro f hf
    have : f = null := by simpa [writeVersion] using hf
    exact this ▸ not_mem_null
  | some v =>
    simp only [writeVersion, List.mem_cons, List.not_mem_nil, or_false, forall_eq_or_imp, forall_eq]
    exact ⟨not_mem_ofNat _, htext _, not_mem_ofInt _, htext _⟩

/-- No field of a conflict holds the separator. -/
theorem not_mem_of_mem_writeConflict (t : Option TreeConflict) :
    ∀ f ∈ writeConflict t, ';' ∉ f.toList := by
  intro f hf
  rw [writeConflict.eq_def, List.mem_append, List.mem_append] at hf
  rcases hf with (hf | hf) | hf
  · cases t with
    | none =>
      have : f = null := by simpa using hf
      exact this ▸ not_mem_null
    | some t =>
      simp only [List.mem_cons, List.not_mem_nil, or_false] at hf
      rcases hf with rfl | rfl | rfl <;> exact not_mem_ofNat _
  · exact not_mem_of_mem_writeVersion _ f hf
  · exact not_mem_of_mem_writeVersion _ f hf

/-- No field of a change holds the separator. -/
theorem not_mem_of_mem_changeFields {c : Change} (h : c.Persistable) (path : Path)
    (o : Option (List UInt8)) : ∀ f ∈ changeFields c path o, ';' ∉ f.toList := by
  intro f hf
  rw [changeFields, List.mem_append, List.mem_append, List.mem_singleton] at hf
  rcases hf with (hf | hf) | rfl
  · simp only [List.mem_cons, List.not_mem_nil, or_false] at hf
    rcases hf with rfl | rfl | rfl | rfl | rfl | rfl | rfl | rfl | rfl | rfl | rfl
    · cases c.record.resource.isContainer <;> decide
    · exact not_mem_writeText _
    · exact not_mem_ofInt _
    · exact not_mem_code _
    · exact not_mem_writeOptional fun a ha => (h.author a ha).2
    · split
      · exact not_mem_null
      · exact not_mem_ofInt _
    · exact not_mem_ofNat _
    · exact not_mem_writePegValue _
    · refine not_mem_writeOptional fun s hs => ?_
      obtain ⟨bytes, _, rfl⟩ := Option.map_eq_some_iff.1 hs
      exact Text.Base64.not_mem_encode bytes
    · refine not_mem_writeOptional fun s hs => ?_
      obtain ⟨t, _, rfl⟩ := Option.map_eq_some_iff.1 hs
      exact not_mem_writeText t
    · exact not_mem_ofNat _
  · exact not_mem_of_mem_writeConflict _ f hf
  · exact not_mem_code _

/-! ### The fields of a record -/

/-- An author that is not the missing one is read back. -/
theorem author_writeOptional {author : Option String} (h : ∀ a ∈ author, a ≠ null) :
    (if writeOptional author = null then none else some (writeOptional author)) = author := by
  cases author with
  | none => rfl
  | some a => exact if_neg (h a rfl)

/-- The date as it is written; the date 0 is unknown, and so absent. -/
theorem date_ofInt {date : Int} (h : Fits64 date) :
    (if (if date = 0 then null else Text.Number.ofInt date) = null then 0
      else readInt 0 (if date = 0 then null else Text.Number.ofInt date)) = date := by
  by_cases hd : date = 0
  · rw [if_pos hd, if_pos rfl, hd]
  · rw [if_neg hd, if_neg (ofInt_ne_null _), readInt_ofInt h]

/-- Flags are read back from their number. -/
theorem mask_ofNat (m : Mask) :
    Mask.ofBits ((Text.Number.nat32? (Text.Number.ofNat m.bits)).getD 0) = m := by
  rw [Text.Number.nat32?_ofNat (by have := m.bits_lt; omega), Option.getD_some, Mask.ofBits_bits]

/-- A flag is read back from its word. -/
theorem decide_flag (b : Bool) : decide ((if b then "true" else "false") = "true") = b := by
  cases b <;> rfl

/-! ### Changes -/

/-- A change that can be persisted reads back field by field, if the written form of its originator
is not the mark of absence. -/
theorem readChange_writeChange_of_ne_null {c : Change} (h : c.Persistable) (hfits : c.Fits)
    {o : Option (List UInt8)} (ho : ∀ bytes ∈ o, Text.Base64.encode bytes ≠ null) {path : String}
    {resolve : Path → Bool → Option Resource}
    (hr : resolve ⟨path⟩ c.record.resource.isContainer = some c.record.resource) :
    readChange (writeChange c ⟨path⟩ o) resolve =
      .ok ({ c with originator := none, peg := c.settledPeg }, o) := by
  have hfields : readFields (writeChange c ⟨path⟩ o) = .ok (changeFields c ⟨path⟩ o) :=
    readFields_writeFields (by simp [changeFields]) (not_mem_of_mem_changeFields h ⟨path⟩ o)
  have hconflict : readConflict (changeFields c ⟨path⟩ o) = .ok c.record.conflict :=
    readConflict_writeConflict hfits.versions rfl _
  have hstatuses : ∀ text mask,
      readStatuses (changeFields c ⟨path⟩ o) text mask = .ok (text, c.record.prop) :=
    readStatuses_full h.prop (by simp [length_writeConflict])
  -- The first eleven fields stand in front of the conflict, so each is found by computation.
  have hcontainer : decide ((changeFields c ⟨path⟩ o).getD 0 "" = "true") =
      c.record.resource.isContainer := decide_flag _
  have hpath : readText ((changeFields c ⟨path⟩ o).getD 1 "") = .ok path :=
    (readText_writeText _).trans (congrArg Except.ok (Raw.text_ofText path))
  have hrevision : readInt unknownRevision ((changeFields c ⟨path⟩ o).getD 2 "") =
      c.record.revision := readInt_ofInt hfits.revision _
  have htext : readStatus ((changeFields c ⟨path⟩ o).getD 3 "") = .ok c.record.text :=
    readStatus_code h.text
  have hauthor : (if (changeFields c ⟨path⟩ o).getD 4 "" = null then none
      else some ((changeFields c ⟨path⟩ o).getD 4 "")) = c.record.author :=
    author_writeOptional fun a ha => (h.author a ha).1
  have hdate : (if (changeFields c ⟨path⟩ o).getD 5 "" = null then 0
      else readInt 0 ((changeFields c ⟨path⟩ o).getD 5 "")) = c.record.date := date_ofInt hfits.date
  have hpeg : readPeg ((changeFields c ⟨path⟩ o).getD 6 "") ((changeFields c ⟨path⟩ o).getD 7 "")
      c.record.revision = c.settledPeg := readPeg_effectivePeg hfits
  have horiginator : readOptional readBytes ((changeFields c ⟨path⟩ o).getD 8 "") = .ok o :=
    readOptional_writeOptional fun bytes hb => ⟨readBytes_encode bytes, ho bytes hb⟩
  have hcomment : readOptional readText ((changeFields c ⟨path⟩ o).getD 9 "") = .ok c.comment :=
    readOptional_text c.comment
  have hmask : Mask.ofBits
      ((Text.Number.nat32? ((changeFields c ⟨path⟩ o).getD 10 "")).getD 0) = c.record.mask :=
    mask_ofNat _
  have hlen : ¬(changeFields c ⟨path⟩ o).length < legacyFields := by
    simp [changeFields, legacyFields]
  unfold readChange
  simp only [hfields, hpath, htext, horiginator, hcomment, hstatuses, hconflict, hrevision, hauthor,
    hdate, hpeg, hmask, hcontainer, bind, Except.bind, if_neg hlen, hr, pure, Except.pure]
  have hrecord : { c.record with baseRevision := c.record.revision } = c.record := by
    rw [← h.base]
  rw [hrecord]

/-- **A written change reads back**, at a path that is UTF-8. Whatever its statuses, dates, comment, conflict and originator
are, a change that can be persisted is read as itself, with the originator beside it and the peg
revision settled. -/
theorem readChange_writeChange {c : Change} (h : c.Persistable) (hfits : c.Fits) (path : String)
    {o : Option (List UInt8)} (ho : ∀ bytes ∈ o, (Text.Utf8.decode? bytes).isSome)
    {resolve : Path → Bool → Option Resource}
    (hr : resolve ⟨path⟩ c.record.resource.isContainer = some c.record.resource) :
    readChange (writeChange c ⟨path⟩ o) resolve =
      .ok ({ c with originator := none, peg := c.settledPeg }, o) :=
  readChange_writeChange_of_ne_null h hfits
    (fun bytes hb => Text.Base64.encode_ne_null (ho bytes hb)) hr

/-- The hypotheses of `readChange_writeChange` are satisfiable: a file in a merge conflict, with an
author without a name, a comment with a semicolon, and a peg revision that is its own revision. -/
theorem readChange_writeChange_conflicting :
    let c : Change :=
      { record :=
          { resource := .file "/p/lib.c", text := .conflicting, prop := .notExists,
            mask := { copied := true, unknownKind := true }, revision := 42, baseRevision := 42,
            author := some "", date := -7,
            conflict := some
              { action := .delete, reason := .movedHere, operation := .merge, left := none,
                right := some { kind := .none, url := none, path := some "", peg := -1 } } }
        peg := some (.number 42), comment := some "fix; again" }
    let resolve : Path → Bool → Option Resource := fun path isFolder =>
      if path.text = "/wc/lib.c" ∧ isFolder = false then some (.file "/p/lib.c") else none
    c.Persistable ∧ c.Fits ∧ (Text.Utf8.decode? [111, 59]).isSome ∧
      resolve ⟨"/wc/lib.c"⟩ c.record.resource.isContainer = some c.record.resource ∧
      readChange (writeChange c ⟨"/wc/lib.c"⟩ (some [111, 59])) resolve =
        .ok ({ c with peg := none }, some [111, 59]) := by
  intro c resolve
  have hp : c.Persistable := ⟨by decide, by decide, by decide, rfl⟩
  have hf : c.Fits := by
    refine ⟨by decide, by decide, fun n hn => ?_, ?_⟩
    · rcases hn with hn | hn <;> cases hn
      decide
    · rintro t ⟨⟩ v (hv | hv) <;> cases hv
      decide
  have hu : (Text.Utf8.decode? [111, 59]).isSome := by decide
  have hr : resolve ⟨"/wc/lib.c"⟩ c.record.resource.isContainer = some c.record.resource := rfl
  refine ⟨hp, hf, hu, hr, ?_⟩
  exact readChange_writeChange hp hf "/wc/lib.c" (by rintro _ ⟨⟩; exact hu) hr

/-- **Which originators read back.** The written form of an originator never holds the separator,
but there is one that is the mark of absence. An originator of those three bytes leaves the record
that none leaves, and is read as none; every other one is read as itself, whatever bytes it
holds. -/
theorem originator_reads_back_iff {c : Change} (h : c.Persistable) (hfits : c.Fits) (path : String)
    (o : List UInt8) {resolve : Path → Bool → Option Resource}
    (hr : resolve ⟨path⟩ c.record.resource.isContainer = some c.record.resource) :
    ';' ∉ (Text.Base64.encode o).toList ∧
    (Text.Base64.encode o = null ↔ o = [0x9E, 0xE9, 0x65]) ∧
    (writeChange c ⟨path⟩ (some o) = writeChange c ⟨path⟩ none ↔ o = [0x9E, 0xE9, 0x65]) ∧
    readChange (writeChange c ⟨path⟩ (some o)) resolve =
      .ok ({ c with originator := none, peg := c.settledPeg },
        if o = [0x9E, 0xE9, 0x65] then none else some o) := by
  have hnull : Text.Base64.encode o = null ↔ o = [0x9E, 0xE9, 0x65] :=
    Text.Base64.encode_eq_null_iff
  have hnone := readChange_writeChange_of_ne_null h hfits (o := none) (fun _ hb => nomatch hb) hr
  refine ⟨Text.Base64.not_mem_encode o, hnull, ?_⟩
  by_cases ho : o = [0x9E, 0xE9, 0x65]
  · have hsame : writeChange c ⟨path⟩ (some o) = writeChange c ⟨path⟩ none := by
      have hfield : writeOptional ((some o).map Text.Base64.encode) = null := hnull.2 ho
      rw [writeChange, writeChange, changeFields, changeFields, hfield]
      rfl
    rw [if_pos ho, hsame]
    exact ⟨iff_of_true rfl ho, hnone⟩
  · have hsome := readChange_writeChange_of_ne_null h hfits (o := some o)
      (fun bytes hb => Option.some.inj hb ▸ fun hmark => ho (hnull.1 hmark)) hr
    rw [if_neg ho]
    refine ⟨iff_of_false (fun hsame => ?_) ho, hsome⟩
    -- One record cannot be read in two ways.
    rw [hsame, hnone] at hsome
    cases hsome

/-- An originator of the three bytes is lost. -/
theorem originator_reads_back_lost :
    let c : Change :=
      { record :=
          { resource := .file "/p/x", text := .normal, prop := .normal, mask := {}, revision := 4,
            baseRevision := 4, author := none, date := 0, conflict := none } }
    let resolve : Path → Bool → Option Resource := fun _ _ => some (.file "/p/x")
    c.Persistable ∧ c.Fits ∧
      resolve ⟨"/wc/x"⟩ c.record.resource.isContainer = some c.record.resource ∧
      readChange (writeChange c ⟨"/wc/x"⟩ (some [0x9E, 0xE9, 0x65])) resolve = .ok (c, none) := by
  intro c resolve
  have hp : c.Persistable := ⟨by decide, by decide, by decide, rfl⟩
  have hf : c.Fits := by
    refine ⟨by decide, by decide, fun n hn => ?_, fun _ ht => nomatch ht⟩
    rcases hn with hn | hn <;> cases hn
  have hr : resolve ⟨"/wc/x"⟩ c.record.resource.isContainer = some c.record.resource := rfl
  obtain ⟨-, -, -, hread⟩ := originator_reads_back_iff hp hf "/wc/x" [0x9E, 0xE9, 0x65] hr
  rw [if_pos rfl] at hread
  exact ⟨hp, hf, hr, hread⟩

end Persisted
end StatusCache
