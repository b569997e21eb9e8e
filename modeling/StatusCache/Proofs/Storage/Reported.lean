/-
# The provenance of reported changes

A record whose text is new, ignored, absent or linked has no revision, no author and no date. What is
cached is made so when it is committed. The record of a reported change is never committed, and only
its revision is taken away, where the status to be shown is that nothing is there
(`Report.ShowsNothing`). So a report of something without provenance (`Report.LacksProvenance`) that
comes with an author, a date, or a revision that is not taken away makes a record that breaks the
rule, and no other report does (`provenance_of_report_iff`).
-/

import StatusCache.Proofs.Storage.Operation

namespace StatusCache

namespace Storage

variable {host : Host} {report : Report} {incoming : Bool} {c : Change}

/-- A report of something that has no provenance: it is ignored or unversioned, or the working copy
has nothing to say about it. -/
def Report.LacksProvenance (report : Report) (incoming : Bool) : Prop :=
  report.text = .ignored ∨ report.text = .unversioned ∨
    report.text = .none ∧ report.prop = .none ∧ incoming = false

/-- A report that is shown as if nothing were there: something unversioned comes in, without a
conflict of its properties, or the working copy has nothing to say. -/
def Report.ShowsNothing (report : Report) (incoming : Bool) : Prop :=
  report.text = .unversioned ∧ report.prop ≠ .conflicted ∧ incoming = true ∨
    report.text = .none ∧ report.prop = .none ∧ incoming = false

/-- The reports whose text status lacks provenance. -/
theorem ofText_mem_iff (report : Report) (incoming : Bool) :
    Status.ofText report.prop report.text incoming ∈ [Status.new, .ignored, .notExists, .linked] ↔
      report.LacksProvenance incoming := by
  unfold Report.LacksProvenance
  generalize report.prop = prop, report.text = text
  cases text <;> cases prop <;> cases incoming <;> decide

/-- The reports of nothing. -/
theorem ofCodes_eq_notExists_iff (report : Report) (incoming : Bool) :
    Status.ofCodes report.prop report.text incoming = .notExists ↔
      report.ShowsNothing incoming := by
  unfold Report.ShowsNothing
  generalize report.prop = prop, report.text = text
  cases text <;> cases prop <;> cases incoming <;> decide

/-- The record of a reported change has the statuses, the author and the date of the report. It has
the revision too, unless it is shown that nothing is there. -/
theorem record_of_report (h : changeOfReport? host report incoming = some c) :
    c.record.text = Status.ofText report.prop report.text incoming ∧
      c.record.status = Status.ofCodes report.prop report.text incoming ∧
      c.record.author = report.author ∧ c.record.date = report.date ∧
      (report.ShowsNothing incoming → c.record.revision = -1) ∧
      (¬report.ShowsNothing incoming → c.record.revision = report.revision.getD (-1)) := by
  obtain ⟨resource, -, rfl⟩ := Option.map_eq_some_iff.1 h
  rw [← ofCodes_eq_notExists_iff]
  simp only [Record.status, Status.ofCodes]
  by_cases hnothing : Status.compound (Status.ofText report.prop report.text incoming)
    (Status.ofProp report.prop) = .notExists
  · simp [hnothing, unknownRevision]
  · simp [hnothing, unknownRevision]

/-- **When a reported change keeps to the rule of provenance.** A report becomes a change if and only
if its path belongs to a resource, whatever else it says. The record of the change keeps to the rule
if and only if what is reported has a provenance, or the report gives no author and no date, and
either no revision or one that is taken away. It is taken away only where it is shown that nothing is
there. -/
theorem provenance_of_report_iff (host : Host) (report : Report) (incoming : Bool) :
    ((changeOfReport? host report incoming).isSome ↔
      (host.resourceAt? report.path (report.kind = .dir)).isSome) ∧
    ∀ c, changeOfReport? host report incoming = some c →
      (c.record.status = .notExists ↔ report.ShowsNothing incoming) ∧
      ((c.record.text ∈ [Status.new, .ignored, .notExists, .linked] →
          c.record.revision = -1 ∧ c.record.author = none ∧ c.record.date = 0) ↔
        ¬report.LacksProvenance incoming ∨
          report.author = none ∧ report.date = 0 ∧
            (report.ShowsNothing incoming ∨ report.revision.getD (-1) = -1)) := by
  refine ⟨by rw [changeOfReport?, Option.isSome_map], fun c h => ?_⟩
  obtain ⟨htext, hstatus, hauthor, hdate, hcleared, hkept⟩ := record_of_report h
  have hrevision : c.record.revision = -1 ↔
      report.ShowsNothing incoming ∨ report.revision.getD (-1) = -1 := by
    by_cases hnothing : report.ShowsNothing incoming
    · exact iff_of_true (hcleared hnothing) (.inl hnothing)
    · rw [hkept hnothing, or_iff_right hnothing]
  refine ⟨by rw [hstatus, ofCodes_eq_notExists_iff], ?_⟩
  rw [htext, ofText_mem_iff, hrevision, hauthor, hdate, imp_iff_not_or]
  exact or_congr_right ⟨fun ⟨hr, ha, hd⟩ => ⟨ha, hd, hr⟩, fun ⟨ha, hd, hr⟩ => ⟨hr, ha, hd⟩⟩

/-- An ignored file that is reported with a revision, an author and a date keeps all three. -/
theorem provenance_of_report_ignored :
    let host : Host := { Env.silent.host with resourceAt? := fun _ _ => some (.file "/p/x.o") }
    let report : Report :=
      { path := ⟨"wc/x.o"⟩, kind := .file, text := .ignored, revision := some 40,
        author := some "alice", date := 1000 }
    ∃ c, changeOfReport? host report false = some c ∧ c.record.text = .ignored ∧
      ¬(c.record.revision = -1 ∧ c.record.author = none ∧ c.record.date = 0) := by
  intro host report
  obtain ⟨hreported, hrule⟩ := provenance_of_report_iff host report false
  obtain ⟨c, hc⟩ := Option.isSome_iff_exists.1 (hreported.2 rfl)
  have htext : c.record.text = .ignored := (record_of_report hc).1
  refine ⟨c, hc, htext, fun hkept => ?_⟩
  rcases (hrule c hc).2.1 fun _ => hkept with hprovenance | ⟨hauthor, -⟩
  · exact hprovenance (.inl rfl)
  · cases hauthor

end Storage
end StatusCache
