/-
# Which records are read as a change

Most fields of a record cannot make it unreadable: a number that nobody can read falls back to a
default. What can are nine rules, asked in order (`Rule.order`), and a record is read if and only if
it keeps to all of them. Otherwise the first rule that it breaks says what is wrong with it: an
unknown status where a status is asked for, and a malformed record everywhere else
(`readChange_grammar`).

The rules are stated by what writing produces (`Rule.Holds`): bytes are UTF-8 if they are the UTF-8
of a text, and a field is base64 if it is the base64 of some bytes. Each part of the reading asks for
one rule, and goes on if that is kept (`Verdict.bind`).
-/

import StatusCache.Proofs.Persisted.Change

namespace StatusCache
namespace Persisted

variable {bytes : List UInt8} {resolve : Path → Bool → Option Resource} {field : String}
  {fields : List String} {α β : Type}

/-! ### The rules -/

/-- The codes of the statuses that a record can name. -/
def statusCodes : List String :=
  ["null", "Normal", "New", "Added", "Deleted", "Missing", "Conflicting", "Modified", "Ignored",
    "Obstructed", "Replaced", "Prereplaced", "Linked"]

/-- The field is the base64 of some bytes. -/
def IsBase64 (field : String) : Prop := ∃ bytes, field = Text.Base64.encode bytes

/-- The field is the base64 of a text. -/
def IsText (field : String) : Prop := ∃ s, field = writeText s

/-- The field is `null`, or has a form. -/
def IsNullOr (form : String → Prop) (field : String) : Prop := field = null ∨ form field

/-- The fields that bytes write; none if they are no UTF-8. -/
def fieldsOf (bytes : List UInt8) : List String :=
  match Text.Utf8.decode? bytes with
  | some text => Text.split ';' text
  | none => []

/-- A field by its place; empty if there are fewer. -/
def fieldAt (bytes : List UInt8) (i : Nat) : String := (fieldsOf bytes).getD i ""

/-- What is asked of a record of a change. -/
inductive Rule
  | utf8
  | length
  | path
  | text
  | originator
  | comment
  | prop
  | conflict
  | resource
deriving DecidableEq, Repr

namespace Rule

/-- The rules in the order in which they are asked. -/
def order : List Rule :=
  [utf8, length, path, text, originator, comment, prop, conflict, resource]

/-- A record keeps to a rule. Only a record of at least 23 fields names the status of its properties,
and a conflict, unless its field 11 is `null`. Each of the two versions in conflict has four fields,
and the second and the fourth are text or `null`; they are `null` if all four are, and the version is
absent. The resolver is asked for the path and the flag for folders. -/
def Holds (bytes : List UInt8) (resolve : Path → Bool → Option Resource) : Rule → Prop
  | utf8 => ∃ text, bytes = Text.Utf8.encode text
  | length => 11 ≤ (fieldsOf bytes).length
  | path => IsText (fieldAt bytes 1)
  | text => fieldAt bytes 3 ∈ statusCodes
  | originator => IsNullOr IsBase64 (fieldAt bytes 8)
  | comment => IsNullOr IsText (fieldAt bytes 9)
  | prop => 23 ≤ (fieldsOf bytes).length → fieldAt bytes 22 ∈ statusCodes
  | conflict => 23 ≤ (fieldsOf bytes).length → fieldAt bytes 11 ≠ null →
      ∀ i ∈ [15, 17, 19, 21], IsNullOr IsText (fieldAt bytes i)
  | resource => ∃ s, fieldAt bytes 1 = writeText s ∧
      (resolve ⟨s⟩ (fieldAt bytes 0 = "true")).isSome

/-- The errors for a record that breaks a rule. -/
def Raises (bytes : List UInt8) : Rule → Error → Prop
  | text, e => e = .unknownStatus (fieldAt bytes 3)
  | prop, e => e = .unknownStatus (fieldAt bytes 22)
  | _, e => ∃ reason, e = .malformedRecord reason

/-- Every rule is asked for. -/
theorem mem_order (rule : Rule) : rule ∈ order := by cases rule <;> decide

end Rule

/-- Two records look the same to the rules: they agree on the flag and on the fields that are asked
for, and are both in an old form or both in full. -/
structure Agree (bytes bytes' : List UInt8) : Prop where
  utf8 : (∃ text, bytes = Text.Utf8.encode text) ↔ ∃ text, bytes' = Text.Utf8.encode text
  length : ∀ n ∈ [11, 23], n ≤ (fieldsOf bytes).length ↔ n ≤ (fieldsOf bytes').length
  flag : fieldAt bytes 0 = "true" ↔ fieldAt bytes' 0 = "true"
  fields : ∀ i ∈ [1, 3, 8, 9], fieldAt bytes i = fieldAt bytes' i
  full : 23 ≤ (fieldsOf bytes).length →
    ∀ i ∈ [11, 15, 17, 19, 21, 22], fieldAt bytes i = fieldAt bytes' i

/-- Records that look the same keep to the same rules. -/
theorem Agree.holds_iff {bytes' : List UInt8} (h : Agree bytes bytes') (rule : Rule) :
    rule.Holds bytes resolve ↔ rule.Holds bytes' resolve := by
  have hfull := h.length 23 (by decide)
  cases rule with
  | utf8 => exact h.utf8
  | length => exact h.length 11 (by decide)
  | path => simp only [Rule.Holds, h.fields 1 (by decide)]
  | text => simp only [Rule.Holds, h.fields 3 (by decide)]
  | originator => simp only [Rule.Holds, h.fields 8 (by decide)]
  | comment => simp only [Rule.Holds, h.fields 9 (by decide)]
  | prop =>
    simp only [Rule.Holds, ← hfull]
    refine forall_congr' fun hlength => ?_
    rw [h.full hlength 22 (by decide)]
  | conflict =>
    simp only [Rule.Holds, ← hfull]
    refine forall_congr' fun hlength => ?_
    rw [h.full hlength 11 (by decide)]
    refine forall_congr' fun _ => forall_congr' fun i => forall_congr' fun hi => ?_
    rw [h.full hlength i (by revert i; decide)]
  | resource =>
    have hflag : decide (fieldAt bytes 0 = "true") = decide (fieldAt bytes' 0 = "true") :=
      decide_eq_decide.2 h.flag
    simp only [Rule.Holds, h.fields 1 (by decide), hflag]

/-! ### Fields that can be read -/

/-- A reading that fails only with a malformed record. -/
def Malforms (x : Except Error α) : Prop := ∀ e, x = .error e → ∃ reason, e = .malformedRecord reason

/-- Readings that fail only so go on with readings that do. -/
theorem Malforms.bind {x : Except Error α} {f : α → Except Error β} (hx : Malforms x)
    (hf : ∀ a, Malforms (f a)) : Malforms (x >>= f) := by
  intro e he
  cases x with
  | error _ =>
    cases he
    exact hx e rfl
  | ok a => exact hf a e he

/-- What is read without a failure does not fail otherwise. -/
theorem Malforms.ok (a : α) : Malforms (.ok a : Except Error α) := fun _ he => nomatch he

/-- A malformed record is one. -/
theorem Malforms.error (reason : String) :
    Malforms (.error (.malformedRecord reason) : Except Error α) :=
  fun _ he => ⟨reason, (Except.error.inj he).symm⟩

/-- Fields can be read from UTF-8 alone. -/
theorem isOk_readFields : (∃ fields, readFields bytes = .ok fields) ↔
    ∃ text, bytes = Text.Utf8.encode text := by
  unfold readFields
  constructor
  · rintro ⟨fields, h⟩
    split at h
    next text htext => exact ⟨text, (Text.Utf8.encode_of_decode? htext).symm⟩
    · cases h
  · rintro ⟨text, rfl⟩
    exact ⟨Text.split ';' text, by rw [Text.Utf8.decode?_encode]⟩

/-- What is no UTF-8 is malformed. -/
theorem malforms_readFields : Malforms (readFields bytes) := by
  unfold readFields
  split
  · exact .ok _
  · exact .error _

/-- The fields that are read are those of the record. -/
theorem fieldsOf_of_readFields (h : readFields bytes = .ok fields) : fieldsOf bytes = fields := by
  unfold readFields at h
  unfold fieldsOf
  cases hdecode : Text.Utf8.decode? bytes with
  | none => rw [hdecode] at h; cases h
  | some text =>
    rw [hdecode] at h
    exact Except.ok.inj h

/-- The fields of a text are what stands between its separators. -/
theorem fieldsOf_encode (text : String) :
    fieldsOf (Text.Utf8.encode text) = Text.split ';' text := by
  rw [fieldsOf, Text.Utf8.decode?_encode]

/-- Bytes can be read from Base64 alone. -/
theorem isOk_readBytes : (∃ bytes, readBytes field = .ok bytes) ↔ IsBase64 field :=
  ⟨fun ⟨bytes, h⟩ => ⟨bytes, (encode_of_readBytes h).symm⟩,
    fun ⟨bytes, h⟩ => ⟨bytes, h ▸ readBytes_encode bytes⟩⟩

/-- What is no Base64 is malformed. -/
theorem malforms_readBytes : Malforms (readBytes field) := by
  unfold readBytes
  split
  · exact .ok _
  · exact .error _

/-- A text can be read from Base64 of UTF-8 alone. -/
theorem isOk_readText : (∃ s, readText field = .ok s) ↔ IsText field :=
  ⟨fun ⟨s, h⟩ => ⟨s, (writeText_of_readText h).symm⟩, fun ⟨s, h⟩ => ⟨s, h ▸ readText_writeText s⟩⟩

/-- What is no text in Base64 is malformed. -/
theorem malforms_readText : Malforms (readText field) := by
  refine .bind malforms_readBytes fun bytes => ?_
  split
  · exact .ok _
  · exact .error _

/-- A sequence of two readings succeeds if both do, whatever the first one finds. -/
theorem isOk_bind {x : Except Error α} {f : α → Except Error β} {p : Prop}
    (hf : ∀ a, (∃ b, f a = .ok b) ↔ p) : (∃ b, x >>= f = .ok b) ↔ (∃ a, x = .ok a) ∧ p := by
  cases x with
  | error e => exact iff_of_false (fun ⟨_, h⟩ => nomatch h) fun ⟨⟨_, h⟩, _⟩ => nomatch h
  | ok a => exact (hf a).trans (and_iff_right ⟨a, rfl⟩).symm

/-- What is made of a reading does not decide whether it succeeds. -/
theorem isOk_bind_pure {x : Except Error α} {f : α → β} :
    (∃ b, (x >>= fun a => pure (f a)) = .ok b) ↔ ∃ a, x = .ok a :=
  (isOk_bind fun a => iff_of_true ⟨f a, rfl⟩ trivial).trans (and_iff_left trivial)

/-- A value that may be missing can be read from its form, or from the word for that. -/
theorem isOk_readOptional {read : String → Except Error α} {form : String → Prop}
    (h : (∃ a, read field = .ok a) ↔ form field) :
    (∃ value, readOptional read field = .ok value) ↔ IsNullOr form field := by
  unfold readOptional IsNullOr
  by_cases hnull : field = null
  · rw [if_pos hnull]
    exact iff_of_true ⟨none, rfl⟩ (.inl hnull)
  · rw [if_neg hnull, or_iff_right hnull, ← h, ← bind_pure_comp]
    exact isOk_bind_pure

/-- A value that may be missing is malformed if the value is. -/
theorem malforms_readOptional {read : String → Except Error α} (h : Malforms (read field)) :
    Malforms (readOptional read field) := by
  unfold readOptional
  split
  · exact .ok _
  · rw [← bind_pure_comp]
    exact h.bind fun a => .ok _

/-- The codes of statuses are those of the list. -/
theorem isSome_ofCode? : (Status.ofCode? field).isSome ↔ field ∈ statusCodes := by
  constructor
  · unfold Status.ofCode?
    split <;> simp [statusCodes]
  · intro h
    simp only [statusCodes, List.mem_cons, List.not_mem_nil, or_false] at h
    rcases h with rfl | rfl | rfl | rfl | rfl | rfl | rfl | rfl | rfl | rfl | rfl | rfl | rfl <;> rfl

/-- A status can be read from its codes alone. -/
theorem isOk_readStatus : (∃ status, readStatus field = .ok status) ↔ field ∈ statusCodes := by
  rw [← isSome_ofCode?, readStatus]
  cases Status.ofCode? field with
  | none => simp
  | some status => simp

/-- What is no code of a status is an unknown status. -/
theorem unknownStatus_of_readStatus {e : Error} (h : readStatus field = .error e) :
    e = .unknownStatus field := by
  unfold readStatus at h
  split at h
  · cases h
  · exact (Except.error.inj h).symm

/-! ### Parts of a record that can be read -/

/-- Old records cannot fail to say what the status of their properties is. -/
theorem isOk_readStatuses {status : Status} {mask : Mask} :
    (∃ statuses, readStatuses fields status mask = .ok statuses) ↔
      (23 ≤ fields.length → fields.getD 22 "" ∈ statusCodes) := by
  unfold readStatuses
  split
  next hfull =>
    have hfull : 23 ≤ fields.length := hfull
    rw [forall_prop_of_true hfull]
    exact isOk_bind_pure.trans isOk_readStatus
  next hold =>
    refine iff_of_true ?_ fun hfull => absurd hfull hold
    split <;> exact ⟨_, rfl⟩

/-- Of the statuses, only that of the properties can be unknown here. -/
theorem unknownStatus_of_readStatuses {status : Status} {mask : Mask} {e : Error}
    (h : readStatuses fields status mask = .error e) :
    e = .unknownStatus (fields.getD 22 "") := by
  unfold readStatuses at h
  split at h
  · cases hread : readStatus (fields.getD 22 "") with
    | error e' =>
      rw [hread] at h
      cases h
      exact unknownStatus_of_readStatus hread
    | ok prop => rw [hread] at h; cases h
  · split at h <;> cases h

/-- A version can be read if its path and its URL can; one whose fields are all absent is none. -/
theorem isOk_readVersion {kind path peg url : String} :
    (∃ version, readVersion kind path peg url = .ok version) ↔
      IsNullOr IsText path ∧ IsNullOr IsText url := by
  unfold readVersion
  split
  next hnull => exact iff_of_true ⟨none, rfl⟩ ⟨.inl hnull.2.1, .inl hnull.2.2.2⟩
  · rw [← isOk_readOptional isOk_readText, ← isOk_readOptional isOk_readText]
    exact isOk_bind fun path => isOk_bind_pure

/-- A version that cannot be read is malformed. -/
theorem malforms_readVersion {kind path peg url : String} :
    Malforms (readVersion kind path peg url) := by
  unfold readVersion
  split
  · exact .ok _
  · exact (malforms_readOptional malforms_readText).bind fun path =>
      (malforms_readOptional malforms_readText).bind fun url => .ok _

/-- A conflict can be read, unless a path or URL in a full record is neither a text nor missing. -/
theorem isOk_readConflict : (∃ conflict, readConflict fields = .ok conflict) ↔
    (23 ≤ fields.length → fields.getD 11 "" ≠ null →
      ∀ i ∈ [15, 17, 19, 21], IsNullOr IsText (fields.getD i "")) := by
  unfold readConflict
  simp only
  split
  next hnone =>
    refine iff_of_true ⟨none, rfl⟩ fun hfull hnull => ?_
    rcases hnone with hold | habsent
    · exact absurd hfull (Nat.not_le_of_lt hold)
    · exact absurd habsent hnull
  next hsome =>
    obtain ⟨hshort, hnull⟩ := not_or.1 hsome
    have hfull : 23 ≤ fields.length := Nat.le_of_not_lt hshort
    rw [forall_prop_of_true hfull, forall_prop_of_true hnull]
    refine (isOk_bind fun left => isOk_bind_pure).trans ?_
    rw [isOk_readVersion, isOk_readVersion]
    simp only [List.forall_mem_cons, and_assoc, List.not_mem_nil, false_imp_iff, implies_true,
      and_true]

/-- A conflict that cannot be read is malformed. -/
theorem malforms_readConflict : Malforms (readConflict fields) := by
  unfold readConflict
  simp only
  split
  · exact .ok _
  · exact malforms_readVersion.bind fun left => malforms_readVersion.bind fun right => .ok _

/-! ### What a reading says of the rules -/

/-- A part of a reading asks for the rules of a list, in order: it succeeds if they are all kept, and
fails with an error for the first one that is broken. -/
inductive Verdict (bytes : List UInt8) (resolve : Path → Bool → Option Resource) :
    List Rule → Except Error α → Prop
  | accepts (a : α) : Verdict bytes resolve [] (.ok a)
  | passes {rule : Rule} {rules : List Rule} {x : Except Error α}
    (hrule : rule.Holds bytes resolve) (hrest : Verdict bytes resolve rules x) :
    Verdict bytes resolve (rule :: rules) x
  | refuses {rule : Rule} (rules : List Rule) {e : Error} (hrule : ¬rule.Holds bytes resolve)
    (he : rule.Raises bytes e) : Verdict bytes resolve (rule :: rules) (.error e)

namespace Verdict

variable {rule : Rule} {rules : List Rule}

/-- One part of a reading asks for one rule, and those that follow for the others. -/
theorem bind {x : Except Error α} {f : α → Except Error β}
    (hok : (∃ a, x = .ok a) ↔ rule.Holds bytes resolve)
    (herror : ∀ e, x = .error e → rule.Raises bytes e)
    (hrest : ∀ a, x = .ok a → Verdict bytes resolve rules (f a)) :
    Verdict bytes resolve (rule :: rules) (x >>= f) := by
  cases x with
  | ok a => exact .passes (hok.1 ⟨a, rfl⟩) (hrest a rfl)
  | error e => exact .refuses rules (fun hrule => nomatch (hok.2 hrule).choose_spec) (herror e rfl)

/-- A test asks for one rule. -/
theorem guard {p : Prop} [Decidable p] {e : Error} {x : Except Error α}
    (hp : p ↔ ¬rule.Holds bytes resolve) (he : rule.Raises bytes e)
    (hrest : Verdict bytes resolve rules x) :
    Verdict bytes resolve (rule :: rules) (if p then .error e else x) := by
  split
  next hbroken => exact .refuses rules (hp.1 hbroken) he
  next hkept => exact .passes (Classical.not_not.1 (mt hp.2 hkept)) hrest

/-- A reading succeeds if the rules that it asks for are kept. -/
theorem isOk_iff {x : Except Error α} (h : Verdict bytes resolve rules x) :
    (∃ a, x = .ok a) ↔ ∀ rule ∈ rules, rule.Holds bytes resolve := by
  induction h with
  | accepts a => exact iff_of_true ⟨a, rfl⟩ (fun _ hr => nomatch hr)
  | passes hrule hrest ih => rw [ih, List.forall_mem_cons, and_iff_right hrule]
  | refuses rules hrule he =>
    exact iff_of_false (fun ⟨_, h⟩ => nomatch h) fun h => hrule (h _ List.mem_cons_self)

/-- A reading fails for the first rule that is broken. -/
theorem exists_of_error {x : Except Error α} (h : Verdict bytes resolve rules x) {e : Error}
    (he : x = .error e) : ∃ before rule after, rules = before ++ rule :: after ∧
      (∀ r ∈ before, r.Holds bytes resolve) ∧ ¬rule.Holds bytes resolve ∧
        rule.Raises bytes e := by
  induction h with
  | accepts a => cases he
  | @passes first rules x hrule hrest ih =>
    obtain ⟨before, rule, after, rfl, hbefore, hbroken, hraises⟩ := ih he
    exact ⟨first :: before, rule, after, rfl, List.forall_mem_cons.2 ⟨hrule, hbefore⟩, hbroken,
      hraises⟩
  | @refuses rule rules e' hrule hraises =>
    obtain rfl := Except.error.inj he
    exact ⟨[], rule, rules, rfl, (fun _ hr => nomatch hr), hrule, hraises⟩

end Verdict

/-- The resolver is asked for the path that was read. -/
theorem holds_resource {path : String} (hpath : readText (fieldAt bytes 1) = .ok path) :
    Rule.Holds bytes resolve .resource ↔
      (resolve ⟨path⟩ (fieldAt bytes 0 = "true")).isSome := by
  have hwritten : fieldAt bytes 1 = writeText path := (writeText_of_readText hpath).symm
  constructor
  · rintro ⟨s, hs, hknown⟩
    obtain rfl := writeText_inj.1 (hs.symm.trans hwritten)
    exact hknown
  · exact fun hknown => ⟨path, hwritten, hknown⟩

/-- Reading a change asks for all rules. -/
theorem verdict_readChange (bytes : List UInt8) (resolve : Path → Bool → Option Resource) :
    Verdict bytes resolve Rule.order (readChange bytes resolve) := by
  unfold readChange
  refine .bind isOk_readFields malforms_readFields fun fields hfields => ?_
  obtain rfl := fieldsOf_of_readFields hfields
  refine .guard Nat.not_le.symm ⟨_, rfl⟩ ?_
  refine .bind isOk_readText malforms_readText fun path hpath => ?_
  refine .bind isOk_readStatus (fun _ => unknownStatus_of_readStatus) fun text _ => ?_
  refine .bind (isOk_readOptional isOk_readBytes) (malforms_readOptional malforms_readBytes)
    fun originator _ => ?_
  refine .bind (isOk_readOptional isOk_readText) (malforms_readOptional malforms_readText)
    fun comment _ => ?_
  refine .bind isOk_readStatuses (fun _ => unknownStatus_of_readStatuses) fun statuses _ => ?_
  refine .bind isOk_readConflict malforms_readConflict fun conflict _ => ?_
  have hresource : Rule.Holds bytes resolve .resource ↔ _ := holds_resource hpath
  unfold fieldAt at hresource
  split
  next hunknown =>
    refine .refuses [] (fun hheld => ?_) ⟨_, rfl⟩
    rw [hresource, hunknown] at hheld
    cases hheld
  next resource hknown => exact .passes (hresource.2 (by rw [hknown]; rfl)) (.accepts _)

/-- **Which records are read.** A record is read as a change if and only if it keeps to all rules. If
it does not, the error is one for the first rule that it breaks. And nothing but what the rules look
at decides whether it is read: two records that look the same to them are both read or both
refused. -/
theorem readChange_grammar (bytes : List UInt8) (resolve : Path → Bool → Option Resource) :
    ((∃ read, readChange bytes resolve = .ok read) ↔
      ∀ rule, Rule.Holds bytes resolve rule) ∧
    (∀ e, readChange bytes resolve = .error e → ∃ before rule after,
      Rule.order = before ++ rule :: after ∧ (∀ r ∈ before, r.Holds bytes resolve) ∧
        ¬rule.Holds bytes resolve ∧ rule.Raises bytes e) ∧
    ∀ bytes', Agree bytes bytes' →
      ((∃ read, readChange bytes' resolve = .ok read) ↔
        ∃ read, readChange bytes resolve = .ok read) := by
  have hread : ∀ bytes, (∃ read, readChange bytes resolve = .ok read) ↔
      ∀ rule, Rule.Holds bytes resolve rule := fun bytes =>
    (verdict_readChange bytes resolve).isOk_iff.trans
      (forall_congr' fun rule => forall_prop_of_true rule.mem_order)
  refine ⟨hread bytes, fun e he => (verdict_readChange bytes resolve).exists_of_error he,
    fun bytes' hagree => ?_⟩
  rw [hread, hread]
  exact forall_congr' fun rule => (hagree.holds_iff rule).symm

/-- A record is read although nothing in it makes sense but its path and its two statuses. -/
theorem readChange_grammar_nonsense :
    let bytes := Text.Utf8.encode
      "?;L3djL3g=;a;Normal;b;c;d;e;null;null;f;g;h;i;j;null;k;null;l;null;m;null;Normal"
    let resolve : Path → Bool → Option Resource := fun path _ =>
      if path.text = "/wc/x" then some (.file "/p/x") else none
    ∃ read, readChange bytes resolve = .ok read := by
  intro bytes resolve
  let fields :=
    ["?", "L3djL3g=", "a", "Normal", "b", "c", "d", "e", "null", "null", "f", "g", "h", "i", "j",
      "null", "k", "null", "l", "null", "m", "null", "Normal"]
  have hfields : fieldsOf bytes = fields := (fieldsOf_encode _).trans (by decide +kernel)
  have hfield (i : Nat) : fieldAt bytes i = fields.getD i "" := by rw [fieldAt, hfields]
  have hpath : fieldAt bytes 1 = writeText "/wc/x" := by
    rw [hfield]
    decide +kernel
  refine (readChange_grammar bytes resolve).1.2 fun rule => ?_
  cases rule with
  | utf8 => exact ⟨_, rfl⟩
  | length =>
    rw [Rule.Holds, hfields]
    decide
  | path => exact ⟨"/wc/x", hpath⟩
  | text =>
    rw [Rule.Holds, hfield]
    decide
  | originator => exact .inl (hfield 8)
  | comment => exact .inl (hfield 9)
  | prop =>
    intro _
    rw [hfield]
    decide
  | conflict =>
    intro _ _ i hi
    have hnull : ∀ i ∈ [15, 17, 19, 21], fields.getD i "" = null := by decide
    exact .inl ((hfield i).trans (hnull i hi))
  | resource => exact ⟨"/wc/x", hpath, rfl⟩

end Persisted
end StatusCache
