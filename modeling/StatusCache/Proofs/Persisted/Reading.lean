/-
# What a persisted change reads as

Reading accepts much more than writing produces: old records that stop after the mask, numbers that
cannot be read, versions with absent parts, fields behind the last. Whatever it accepts, it reads as
a change that can be persisted (`persistable_of_readChange`), whose numbers fit their fields and
whose peg revision is settled. So saving again what was read changes nothing
(`readChange_writeChange_of_readChange`).
-/

import Mathlib
import StatusCache.Proofs.Persisted.Change

namespace StatusCache

open Text.Number (Fits64)

namespace Persisted

/-! ### Statuses, versions and revisions -/

/-- The status for a failed lookup is never read. -/
theorem readStatus_ne {field : String} {s : Status} (h : readStatus field = .ok s) :
    s ≠ .internalInvalid := by
  rintro rfl
  unfold readStatus at h
  split at h
  next status hs =>
    obtain rfl := Except.ok.inj h
    exact Status.ofCode?_ne field hs
  · cases h

/-- Neither status of a record that is read is one without a code. -/
theorem readStatuses_ne {fields : List String} {text text' prop : Status} {mask : Mask}
    (h : readStatuses fields text mask = .ok (text', prop)) (ht : text ≠ .internalInvalid) :
    text' ≠ .internalInvalid ∧ prop ≠ .internalInvalid := by
  unfold readStatuses at h
  split at h
  · obtain ⟨p, hp, h⟩ := exists_of_bind_eq_ok h
    obtain ⟨rfl, rfl⟩ := Prod.mk.inj (Except.ok.inj h)
    exact ⟨ht, readStatus_ne hp⟩
  split at h
  · obtain ⟨rfl, rfl⟩ := Prod.mk.inj (Except.ok.inj h)
    refine ⟨?_, by decide⟩
    split
    · exact ht
    · decide
  · obtain ⟨rfl, rfl⟩ := Prod.mk.inj (Except.ok.inj h)
    exact ⟨ht, by decide⟩

/-- A peg that is read in a version has 64 bits. -/
theorem fits64_peg_of_readVersion {kind path peg url : String} {v : Option TreeConflict.Version}
    (h : readVersion kind path peg url = .ok v) : ∀ w ∈ v, Fits64 w.peg := by
  intro w hw
  obtain rfl := hw
  unfold readVersion at h
  split at h
  · cases h
  · obtain ⟨p, _, h⟩ := exists_of_bind_eq_ok h
    obtain ⟨u, _, h⟩ := exists_of_bind_eq_ok h
    obtain rfl := Option.some.inj (Except.ok.inj h)
    exact fits64_readInt (by decide) peg

/-- A peg that is read in a conflict has 64 bits. -/
theorem fits64_peg_of_readConflict {fields : List String} {t : Option TreeConflict}
    (h : readConflict fields = .ok t) :
    ∀ u ∈ t, ∀ v, v ∈ u.left ∨ v ∈ u.right → Fits64 v.peg := by
  intro u hu v hv
  obtain rfl := hu
  unfold readConflict at h
  simp only at h
  split at h
  · cases h
  · obtain ⟨left, hleft, h⟩ := exists_of_bind_eq_ok h
    obtain ⟨right, hright, h⟩ := exists_of_bind_eq_ok h
    obtain rfl := Option.some.inj (Except.ok.inj h)
    rcases hv with hv | hv
    · exact fits64_peg_of_readVersion hleft v hv
    · exact fits64_peg_of_readVersion hright v hv

/-- A peg revision that is read as a number differs from the revision, and the latter is known. -/
theorem readPeg_eq_number {kind value : String} {revision n : Int}
    (h : readPeg kind value revision = some (.number n)) :
    n ≠ revision ∧ revision ≠ unknownRevision ∧
      n = (Text.Number.int64? value).getD revision := by
  unfold readPeg at h
  cases hk : readRevisionKind kind revision with
  | number =>
    simp only [hk] at h
    split at h
    next hn =>
      obtain rfl := Revision.number.inj (Option.some.inj h)
      exact ⟨hn.1, hn.2, rfl⟩
    · cases h
  | _ => simp [hk, Revision.ofKind] at h

/-- A date that is read as a peg is its field. -/
theorem readPeg_eq_date {kind value : String} {revision n : Int}
    (h : readPeg kind value revision = some (.date n)) :
    n = (Text.Number.int64? value).getD 0 := by
  unfold readPeg at h
  cases hk : readRevisionKind kind revision with
  | number =>
    simp only [hk] at h
    split at h <;> cases h
  | date =>
    simp only [hk] at h
    exact (Revision.date.inj (Option.some.inj h)).symm
  | _ => simp [hk, Revision.ofKind] at h

/-! ### Changes -/

/-- What a successful reading has found, field by field. -/
theorem exists_of_readChange {bytes : List UInt8} {resolve : Path → Bool → Option Resource}
    {c : Change} {o : Option (List UInt8)} (h : readChange bytes resolve = .ok (c, o)) :
    ∃ fields text status, readFields bytes = .ok fields ∧ readText (fields.getD 1 "") = .ok text ∧
      readStatus (fields.getD 3 "") = .ok status ∧
      readOptional readBytes (fields.getD 8 "") = .ok o ∧
      readStatuses fields status c.record.mask = .ok (c.record.text, c.record.prop) ∧
      readConflict fields = .ok c.record.conflict ∧
      c.record.revision = readInt unknownRevision (fields.getD 2 "") ∧
      c.record.baseRevision = c.record.revision ∧
      c.record.author = (if fields.getD 4 "" = null then none else some (fields.getD 4 "")) ∧
      c.record.date = (if fields.getD 5 "" = null then 0 else readInt 0 (fields.getD 5 "")) ∧
      c.peg = readPeg (fields.getD 6 "") (fields.getD 7 "") c.record.revision ∧
      c.originator = none := by
  obtain ⟨fields, hfields, h⟩ := exists_of_bind_eq_ok h
  simp only at h
  split at h
  · cases h
  obtain ⟨text, htext, h⟩ := exists_of_bind_eq_ok h
  obtain ⟨status, hstatus, h⟩ := exists_of_bind_eq_ok h
  obtain ⟨_, ho, h⟩ := exists_of_bind_eq_ok h
  obtain ⟨_, _, h⟩ := exists_of_bind_eq_ok h
  obtain ⟨⟨_, _⟩, hstatuses, h⟩ := exists_of_bind_eq_ok h
  obtain ⟨_, hconflict, h⟩ := exists_of_bind_eq_ok h
  split at h
  · cases h
  · obtain ⟨rfl, rfl⟩ := Prod.mk.inj (Except.ok.inj h)
    exact ⟨fields, text, status, hfields, htext, hstatus, ho, hstatuses, hconflict, rfl, rfl, rfl,
      rfl, rfl, rfl⟩

/-- What was read can be persisted: every fallback of the reader is a value that a record can
say. -/
theorem persistable_of_readChange {bytes : List UInt8} {resolve : Path → Bool → Option Resource}
    {c : Change} {o : Option (List UInt8)} (h : readChange bytes resolve = .ok (c, o)) :
    c.Persistable := by
  obtain ⟨fields, _, status, hfields, _, hstatus, _, hstatuses, _, _, hbase, hauthor, _⟩ :=
    exists_of_readChange h
  obtain ⟨htext, hprop⟩ := readStatuses_ne hstatuses (readStatus_ne hstatus)
  refine ⟨htext, hprop, fun a ha => ?_, hbase⟩
  rw [hauthor] at ha
  split at ha
  · cases ha
  next hne =>
    obtain rfl := Option.some.inj ha
    refine ⟨hne, ?_⟩
    rw [List.getD_eq_getElem?_getD]
    cases hget : fields[4]? with
    | none => decide
    | some field => exact not_mem_of_readFields hfields field (List.mem_of_getElem? hget)

/-- All numbers of a change that is read have 64 bits. -/
theorem fits_of_readChange {bytes : List UInt8} {resolve : Path → Bool → Option Resource}
    {c : Change} {o : Option (List UInt8)} (h : readChange bytes resolve = .ok (c, o)) :
    c.Fits := by
  obtain ⟨fields, _, _, _, _, _, _, _, hconflict, hrevision, _, _, hdate, hpeg, _⟩ :=
    exists_of_readChange h
  have hfits : Fits64 c.record.revision := by
    rw [hrevision]
    exact fits64_readInt (by decide) _
  refine ⟨hfits, ?_, fun n hn => ?_, fits64_peg_of_readConflict hconflict⟩
  · rw [hdate]
    split
    · decide
    · exact fits64_readInt (by decide) _
  · rw [hpeg] at hn
    rcases hn with hn | hn
    · rw [(readPeg_eq_number hn).2.2]
      exact Text.Number.fits64_getD_int64? hfits _
    · rw [readPeg_eq_date hn]
      exact Text.Number.fits64_getD_int64? (by decide) _

/-- A peg revision that was read is settled already. -/
theorem settledPeg_of_readChange {bytes : List UInt8} {resolve : Path → Bool → Option Resource}
    {c : Change} {o : Option (List UInt8)} (h : readChange bytes resolve = .ok (c, o)) :
    c.settledPeg = c.peg := by
  obtain ⟨_, _, _, _, _, _, _, _, _, _, _, _, _, hpeg, _⟩ := exists_of_readChange h
  unfold Change.settledPeg
  split
  next n hn =>
    obtain ⟨hne, hknown, _⟩ := readPeg_eq_number (hpeg.symm.trans hn)
    rw [if_neg (not_or.2 ⟨hne, hknown⟩), hn]
  · rfl

/-- The path that a record stores. -/
def storedPath? (bytes : List UInt8) : Option Path :=
  match readFields bytes with
  | .ok fields => (readText (fields.getD 1 "")).toOption.map fun text => ⟨text⟩
  | .error _ => none

/-- **Saving again what was read changes nothing.** Whatever bytes were read, the change they were
read as is written in full, and any resolver that leads back to its resource reads the new record
as the same change with the same originator. -/
theorem readChange_writeChange_of_readChange {bytes : List UInt8}
    {resolve : Path → Bool → Option Resource} {c : Change} {o : Option (List UInt8)}
    (h : readChange bytes resolve = .ok (c, o)) :
    ∃ path, storedPath? bytes = some path ∧
      (∃ fields, readFields (writeChange c path o) = .ok fields ∧ fields.length = fullFields) ∧
      ∀ resolve' : Path → Bool → Option Resource,
        resolve' path c.record.resource.isContainer = some c.record.resource →
          readChange (writeChange c path o) resolve' = .ok (c, o) := by
  have hpersistable := persistable_of_readChange h
  obtain ⟨fields, text, _, hfields, htext, _, ho, _, _, _, _, _, _, _, horiginator⟩ :=
    exists_of_readChange h
  refine ⟨⟨text⟩, by rw [storedPath?, hfields]; simp only [htext]; rfl, ?_, fun resolve' hr => ?_⟩
  · refine ⟨changeFields c ⟨text⟩ o, readFields_writeFields (by simp [changeFields])
      (not_mem_of_mem_changeFields hpersistable _ o), ?_⟩
    simp [changeFields, length_writeConflict, fullFields]
  · rw [readChange_writeChange_of_ne_null hpersistable (fits_of_readChange h)
      (encode_ne_null_of_readOptional ho) hr, settledPeg_of_readChange h, ← horiginator]

/-- The hypothesis of `readChange_writeChange_of_readChange` is satisfiable by an old record of
eleven fields, with a date and a kind of revision that nobody can read and a status of the
properties that follows from the mask. -/
theorem readChange_writeChange_legacy :
    let bytes := Text.Utf8.encode "true;L3djL2xpYg==;+12;Modified;carol;soon;?;30;null;null;2"
    let resolve : Path → Bool → Option Resource := fun path isFolder =>
      if path.text = "/wc/lib" ∧ isFolder = true then some (.folder "/p/lib") else none
    let c : Change :=
      { record :=
          { resource := .folder "/p/lib", text := .normal, prop := .modified,
            mask := { propModified := true }, revision := 12, baseRevision := 12,
            author := some "carol", date := 0, conflict := none }
        peg := some (.number 30) }
    readChange bytes resolve = .ok (c, none) ∧
      ∃ path, storedPath? bytes = some path ∧
        (∃ fields, readFields (writeChange c path none) = .ok fields ∧
          fields.length = fullFields) ∧
        ∀ resolve' : Path → Bool → Option Resource,
          resolve' path c.record.resource.isContainer = some c.record.resource →
            readChange (writeChange c path none) resolve' = .ok (c, none) := by
  intro bytes resolve c
  have h : readChange bytes resolve = .ok (c, none) := by
    unfold bytes resolve c
    cbv
  exact ⟨h, readChange_writeChange_of_readChange h⟩

end Persisted
end StatusCache
