/-
# Fields read back

A record of fields without a semicolon reads as those fields (`readFields_writeFields`), and each
kind of field reads as what was written: text (`readText_writeText`), values that may be absent
(`readOptional_writeOptional`), numbers.
-/

import StatusCache.Persisted.Field
import StatusCache.Proofs.Text.Base64
import StatusCache.Proofs.Text.Number

namespace StatusCache
namespace Persisted

/-- A sequence of readings succeeds when each of them does. -/
theorem exists_of_bind_eq_ok {α β : Type} {x : Except Error α} {f : α → Except Error β} {b : β}
    (h : x >>= f = .ok b) : ∃ a, x = .ok a ∧ f a = .ok b := by
  cases x with
  | error e => cases h
  | ok a => exact ⟨a, rfl, h⟩

/-! ### Records -/

/-- **Fields without a separator read back.** -/
theorem readFields_writeFields {fields : List String} (hne : fields ≠ [])
    (h : ∀ f ∈ fields, ';' ∉ f.toList) : readFields (writeFields fields) = .ok fields := by
  rw [readFields, writeFields, Text.Utf8.decode?_encode]
  simp only [Text.split_join hne h]

/-- No field that is read holds the separator. -/
theorem not_mem_of_readFields {bytes : List UInt8} {fields : List String}
    (h : readFields bytes = .ok fields) : ∀ f ∈ fields, ';' ∉ f.toList := by
  unfold readFields at h
  split at h
  next text _ =>
    obtain rfl := Except.ok.inj h
    exact fun f hf => Text.not_mem_of_mem_split hf
  · exact absurd h (by simp)

/-! ### Bytes and text -/

/-- Bytes are read back from Base64. -/
theorem readBytes_encode (bytes : List UInt8) :
    readBytes (Text.Base64.encode bytes) = .ok bytes := by
  rw [readBytes, Text.Base64.decode?_encode]

/-- A field of bytes is the written form of what it reads as. -/
theorem encode_of_readBytes {field : String} {bytes : List UInt8}
    (h : readBytes field = .ok bytes) : Text.Base64.encode bytes = field := by
  unfold readBytes at h
  split at h
  next b hb =>
    obtain rfl := Except.ok.inj h
    exact Text.Base64.encode_of_decode? hb
  · exact absurd h (by simp)

/-- A text is read back. -/
theorem readText_writeText (s : String) : readText (writeText s) = .ok s := by
  simp [readText, writeText, readBytes_encode, bind, Except.bind, Text.Utf8.decode?_encode,
    pure, Except.pure]

/-- A field of text is the written form of what it reads as. -/
theorem writeText_of_readText {field s : String} (h : readText field = .ok s) :
    writeText s = field := by
  obtain ⟨bytes, hbytes, h⟩ := exists_of_bind_eq_ok h
  split at h
  next text htext =>
    obtain rfl := Except.ok.inj h
    rw [writeText, Text.Utf8.encode_of_decode? htext, encode_of_readBytes hbytes]
  · cases h

/-- Different texts are written differently. -/
theorem writeText_inj {s t : String} : writeText s = writeText t ↔ s = t :=
  ⟨fun h => Except.ok.inj ((readText_writeText s).symm.trans (h ▸ readText_writeText t)),
    fun h => h ▸ rfl⟩

/-- No text is written like a missing one. -/
theorem writeText_ne_null (s : String) : writeText s ≠ null :=
  Text.Base64.encode_ne_null (by rw [Text.Utf8.decode?_encode]; rfl)

/-- A text that is written does not hold the separator. -/
theorem not_mem_writeText (s : String) : ';' ∉ (writeText s).toList :=
  Text.Base64.not_mem_encode _

/-! ### Values that may be absent -/

/-- The word for what is missing does not hold the separator. -/
theorem not_mem_null : ';' ∉ null.toList := by decide

/-- A field that may be missing does not hold the separator, if its value does not. -/
theorem not_mem_writeOptional {value : Option String} (h : ∀ s ∈ value, ';' ∉ s.toList) :
    ';' ∉ (writeOptional value).toList := by
  cases value with
  | none => exact not_mem_null
  | some s => exact h s rfl

/-- **A value that may be absent reads back**, if its written form is not the mark of absence. -/
theorem readOptional_writeOptional {α : Type} {read : String → Except Error α}
    {write : α → String} {value : Option α}
    (h : ∀ a ∈ value, read (write a) = .ok a ∧ write a ≠ null) :
    readOptional read (writeOptional (value.map write)) = .ok value := by
  cases value with
  | none => rfl
  | some a =>
    obtain ⟨hread, hne⟩ := h a rfl
    simp only [writeOptional, Option.map_some, Option.getD_some, readOptional, if_neg hne, hread]
    rfl

/-- A text that may be missing is read back. -/
theorem readOptional_text (value : Option String) :
    readOptional readText (writeOptional (value.map writeText)) = .ok value :=
  readOptional_writeOptional fun s _ => ⟨readText_writeText s, writeText_ne_null s⟩

/-- Bytes that were read from a field that is not absent are not written as absent. -/
theorem encode_ne_null_of_readOptional {field : String} {value : Option (List UInt8)}
    (h : readOptional readBytes field = .ok value) :
    ∀ bytes ∈ value, Text.Base64.encode bytes ≠ null := by
  unfold readOptional at h
  split at h
  · obtain rfl := Except.ok.inj h
    exact fun _ hb => nomatch hb
  next hne =>
    cases hread : readBytes field with
    | error e => rw [hread] at h; cases h
    | ok bytes =>
      rw [hread] at h
      obtain rfl := Except.ok.inj h
      intro b hb
      obtain rfl := Option.some.inj hb
      rwa [encode_of_readBytes hread]

/-! ### Numbers -/

/-- No integer is written like a missing value. -/
theorem ofInt_ne_null (n : Int) : Text.Number.ofInt n ≠ null :=
  Text.Number.ofInt_ne (c := 'n') (by decide) (by decide) (by decide)

/-- No number is written like a missing value. -/
theorem ofNat_ne_null (n : Nat) : Text.Number.ofNat n ≠ null :=
  Text.Number.ofNat_ne (c := 'n') (by decide) (by decide)

/-- An integer that is written does not hold the separator. -/
theorem not_mem_ofInt (n : Int) : ';' ∉ (Text.Number.ofInt n).toList := by
  intro h
  rcases Text.Number.mem_ofInt h with h | h
  · exact absurd h (by decide)
  · exact absurd h (by decide)

/-- A number that is written does not hold the separator. -/
theorem not_mem_ofNat (n : Nat) : ';' ∉ (Text.Number.ofNat n).toList :=
  fun h => absurd (Text.Number.isDigit_of_mem_ofNat h) (by decide)

/-- An integer of 64 bits is read back. -/
theorem readInt_ofInt {n : Int} (h : Text.Number.Fits64 n) (d : Int) :
    readInt d (Text.Number.ofInt n) = n := by
  rw [readInt, Text.Number.int64?_ofInt h, Option.getD_some]

/-- A number of 31 bits is read back. -/
theorem readId_ofNat {n : Nat} (h : n < 2147483648) (d : Int) :
    readId d (Text.Number.ofNat n) = n := by
  rw [readId, Text.Number.int32?_ofNat h, Option.getD_some]

/-- What is read as an integer has 64 bits, if the default has. -/
theorem fits64_readInt {d : Int} (hd : Text.Number.Fits64 d) (field : String) :
    Text.Number.Fits64 (readInt d field) :=
  Text.Number.fits64_getD_int64? hd field

end Persisted
end StatusCache
