/-
# Base64 has one written form for every byte string

`decode?_encode` and `encode_of_decode?` make writing and reading inverse to each other: every byte
string reads back, and a text that reads at all is the written form of what it reads as. A written
form holds only characters of the alphabet and padding, so never a semicolon (`not_mem_encode`).

The word `null` is itself base64. It is the written form of three bytes and of no others
(`encode_eq_null_iff`). The first of them continues a UTF-8 sequence that nothing has begun, so the
written form of a text is never `null` (`encode_ne_null`).
-/

import StatusCache.Text.Base64
import StatusCache.Text.Utf8

namespace StatusCache
namespace Text
namespace Base64

/-! ### The alphabet -/

/-- The value of a symbol is read back. -/
theorem value?_symbol {n : Nat} (h : n < 64) : value? (symbol n) = some n := by
  have all : ∀ n < 64, value? (symbol n) = some n := by decide
  exact all n h

/-- A character with a value is the symbol of that value. -/
theorem symbol_of_value? {c : Char} {n : Nat} (h : value? c = some n) :
    n < 64 ∧ symbol n = c := by
  have letter : ∀ k : Nat, k ≤ c.toNat → Char.ofNat (k + (c.toNat - k)) = c := by
    intro k hk
    rw [Nat.add_sub_cancel' hk, Char.ofNat_toNat]
  unfold value? at h
  simp only at h
  split at h
  next hc =>
    obtain rfl := Option.some.inj h
    refine ⟨by omega, ?_⟩
    rw [symbol, if_pos (by omega), letter 65 hc.1]
  split at h
  next hc =>
    obtain rfl := Option.some.inj h
    refine ⟨by omega, ?_⟩
    rw [symbol, if_neg (by omega), if_pos (by omega), Nat.add_sub_cancel, letter 97 hc.1]
  split at h
  next hc =>
    obtain rfl := Option.some.inj h
    refine ⟨by omega, ?_⟩
    rw [symbol, if_neg (by omega), if_neg (by omega), if_pos (by omega), Nat.add_sub_cancel,
      letter 48 hc.1]
  split at h
  next hc =>
    obtain rfl := Option.some.inj h
    exact ⟨by omega, hc.symm⟩
  split at h
  next hc =>
    obtain rfl := Option.some.inj h
    exact ⟨by omega, hc.symm⟩
  · exact absurd h (by simp)

/-- No symbol is padding or a semicolon. -/
theorem symbol_ne {n : Nat} (h : n < 64) : symbol n ≠ '=' ∧ symbol n ≠ ';' := by
  have all : ∀ n < 64, symbol n ≠ '=' ∧ symbol n ≠ ';' := by decide
  exact all n h

/-! ### Writing, then reading -/

/-- Bytes are encoded by symbols. -/
theorem encodeBytes_ne_nil {bytes : List UInt8} (h : bytes ≠ []) : encodeBytes bytes ≠ [] := by
  fun_cases encodeBytes bytes <;> simp_all

/-- A group with more text behind it is a full one. -/
theorem decodeChars_cons {rest : List Char} (h : rest ≠ []) (w x y z : Char) :
    decodeChars (w :: x :: y :: z :: rest) = (do
      let head ← group? w x y z
      let tail ← decodeChars rest
      return head ++ tail) := by
  cases rest with
  | nil => exact absurd rfl h
  | cons c cs => rw [decodeChars]; simp

/-- The four symbols of three bytes stand for those bytes. -/
theorem group?_symbols (a b c : UInt8) :
    group? (symbol (a.toNat / 4)) (symbol (a.toNat % 4 * 16 + b.toNat / 16))
      (symbol (b.toNat % 16 * 4 + c.toNat / 64)) (symbol (c.toNat % 64)) = some [a, b, c] := by
  have ha := a.toNat_lt
  have hb := b.toNat_lt
  have hc := c.toNat_lt
  rw [group?, value?_symbol (by omega), value?_symbol (by omega), value?_symbol (by omega),
    value?_symbol (by omega)]
  have h₁ : a.toNat / 4 * 4 + (a.toNat % 4 * 16 + b.toNat / 16) / 16 = a.toNat := by omega
  have h₂ : (a.toNat % 4 * 16 + b.toNat / 16) % 16 * 16
      + (b.toNat % 16 * 4 + c.toNat / 64) / 4 = b.toNat := by omega
  have h₃ : (b.toNat % 16 * 4 + c.toNat / 64) % 4 * 64 + c.toNat % 64 = c.toNat := by omega
  simp only [Option.bind_eq_bind, Option.bind_some, Option.pure_def, h₁, h₂, h₃,
    UInt8.ofNat_toNat]

/-- Bytes are read back from their symbols. -/
theorem decodeChars_encodeBytes (bytes : List UInt8) :
    decodeChars (encodeBytes bytes) = some bytes := by
  fun_induction encodeBytes bytes with
  | case1 => rfl
  | case2 a =>
    have ha := a.toNat_lt
    rw [decodeChars, lastGroup?, if_neg (by simp), value?_symbol (by omega),
      value?_symbol (by omega)]
    have h₀ : a.toNat % 4 * 16 % 16 = 0 := by omega
    have h₁ : a.toNat / 4 * 4 + a.toNat % 4 * 16 / 16 = a.toNat := by omega
    simp only [Option.bind_eq_bind, Option.bind_some, Option.pure_def, if_true, h₀, h₁,
      UInt8.ofNat_toNat]
  | case3 a b =>
    have ha := a.toNat_lt
    have hb := b.toNat_lt
    rw [decodeChars, lastGroup?, if_neg (by simp), value?_symbol (by omega),
      value?_symbol (by omega)]
    have h₁ : a.toNat / 4 * 4 + (a.toNat % 4 * 16 + b.toNat / 16) / 16 = a.toNat := by omega
    have h₂ : (a.toNat % 4 * 16 + b.toNat / 16) % 16 * 16 + b.toNat % 16 * 4 / 4 = b.toNat := by
      omega
    have hne := (symbol_ne (n := b.toNat % 16 * 4) (by omega)).1
    have hv := value?_symbol (n := b.toNat % 16 * 4) (by omega)
    have h₀ : b.toNat % 16 * 4 % 4 = 0 := by omega
    simp only [Option.bind_eq_bind, Option.bind_some, Option.pure_def, if_true, if_neg hne, hv, h₀,
      h₁, h₂, UInt8.ofNat_toNat]
  | case4 a b c rest ih =>
    by_cases hrest : rest = []
    · subst hrest
      have hc := c.toNat_lt
      have hne := (symbol_ne (n := c.toNat % 64) (by omega)).1
      rw [encodeBytes, decodeChars, lastGroup?, if_pos hne, group?_symbols]
    · rw [decodeChars_cons (encodeBytes_ne_nil hrest), group?_symbols, ih]
      rfl

/-- **Every byte string reads back.** -/
theorem decode?_encode (bytes : List UInt8) : decode? (encode bytes) = some bytes := by
  rw [decode?, encode, String.toList_ofList, decodeChars_encodeBytes]

/-! ### Reading, then writing -/

/-- A group that can be read is how its bytes are encoded. -/
theorem encodeBytes_of_group? {w x y z : Char} {bytes : List UInt8}
    (h : group? w x y z = some bytes) (rest : List UInt8) :
    encodeBytes (bytes ++ rest) = w :: x :: y :: z :: encodeBytes rest := by
  simp only [group?, Option.bind_eq_bind, Option.pure_def, Option.bind_eq_some_iff] at h
  obtain ⟨a, ha, b, hb, c, hc, d, hd, h⟩ := h
  obtain rfl := Option.some.inj h
  obtain ⟨ha, rfl⟩ := symbol_of_value? ha
  obtain ⟨hb, rfl⟩ := symbol_of_value? hb
  obtain ⟨hc, rfl⟩ := symbol_of_value? hc
  obtain ⟨hd, rfl⟩ := symbol_of_value? hd
  simp only [List.cons_append, List.nil_append, encodeBytes, UInt8.toNat_ofNat']
  have h₁ : (a * 4 + b / 16) % 2 ^ 8 / 4 = a := by omega
  have h₂ : (a * 4 + b / 16) % 2 ^ 8 % 4 * 16 + (b % 16 * 16 + c / 4) % 2 ^ 8 / 16 = b := by omega
  have h₃ : (b % 16 * 16 + c / 4) % 2 ^ 8 % 16 * 4 + (c % 4 * 64 + d) % 2 ^ 8 / 64 = c := by omega
  have h₄ : (c % 4 * 64 + d) % 2 ^ 8 % 64 = d := by omega
  rw [h₁, h₂, h₃, h₄]

/-- A last group that can be read is how its bytes are encoded. -/
theorem encodeBytes_of_lastGroup? {w x y z : Char} {bytes : List UInt8}
    (h : lastGroup? w x y z = some bytes) : encodeBytes bytes = [w, x, y, z] := by
  unfold lastGroup? at h
  split at h
  · simpa [encodeBytes] using encodeBytes_of_group? h []
  next hz =>
    obtain rfl := Decidable.not_not.1 hz
    simp only [Option.bind_eq_bind, Option.pure_def, Option.bind_eq_some_iff] at h
    obtain ⟨a, ha, b, hb, h⟩ := h
    obtain ⟨ha, rfl⟩ := symbol_of_value? ha
    obtain ⟨hb, rfl⟩ := symbol_of_value? hb
    split at h
    next hy =>
      split at h
      next hb₀ =>
        obtain rfl := Option.some.inj h
        obtain rfl := hy
        simp only [encodeBytes, UInt8.toNat_ofNat']
        -- The bits that the group leaves unused are zero, so nothing is lost.
        have h₁ : (a * 4 + b / 16) % 2 ^ 8 / 4 = a := by omega
        have h₂ : (a * 4 + b / 16) % 2 ^ 8 % 4 * 16 = b := by omega
        rw [h₁, h₂]
      · exact absurd h (by simp)
    next hy =>
      obtain ⟨c, hc, hend⟩ := Option.bind_eq_some_iff.1 h
      obtain ⟨hc, rfl⟩ := symbol_of_value? hc
      split at hend
      next hc₀ =>
        obtain rfl := Option.some.inj hend
        simp only [encodeBytes, UInt8.toNat_ofNat']
        have h₁ : (a * 4 + b / 16) % 2 ^ 8 / 4 = a := by omega
        have h₂ : (a * 4 + b / 16) % 2 ^ 8 % 4 * 16 + (b % 16 * 16 + c / 4) % 2 ^ 8 / 16 = b := by
          omega
        have h₃ : (b % 16 * 16 + c / 4) % 2 ^ 8 % 16 * 4 = c := by omega
        rw [h₁, h₂, h₃]
      · exact absurd hend (by simp)

/-- Symbols that can be read are how their bytes are encoded. -/
theorem encodeBytes_of_decodeChars {cs : List Char} {bytes : List UInt8}
    (h : decodeChars cs = some bytes) : encodeBytes bytes = cs := by
  fun_induction decodeChars cs generalizing bytes with
  | case1 =>
    obtain rfl := Option.some.inj h
    rfl
  | case2 w x y z => exact encodeBytes_of_lastGroup? h
  | case3 w x y z rest _ ih =>
    simp only [Option.bind_eq_bind, Option.pure_def, Option.bind_eq_some_iff] at h
    obtain ⟨head, hhead, tail, htail, h⟩ := h
    obtain rfl := Option.some.inj h
    rw [encodeBytes_of_group? hhead, ih htail]
  | case4 => exact absurd h (by simp)

/-- **A text that reads is the written form of what it reads as.** -/
theorem encode_of_decode? {s : String} {bytes : List UInt8} (h : decode? s = some bytes) :
    encode bytes = s := by
  rw [encode, encodeBytes_of_decodeChars h, String.ofList_toList]

/-! ### What is never written -/

/-- The separator of fields is no symbol. -/
theorem not_mem_encodeBytes (bytes : List UInt8) : ';' ∉ encodeBytes bytes := by
  have hne : ∀ n < 64, ';' ≠ symbol n := fun n hn => (symbol_ne hn).2.symm
  fun_induction encodeBytes bytes with
  | case1 => simp
  | case2 a =>
    have ha := a.toNat_lt
    simp [hne (a.toNat / 4) (by omega), hne (a.toNat % 4 * 16) (by omega)]
  | case3 a b =>
    have ha := a.toNat_lt
    have hb := b.toNat_lt
    simp [hne (a.toNat / 4) (by omega), hne (a.toNat % 4 * 16 + b.toNat / 16) (by omega),
      hne (b.toNat % 16 * 4) (by omega)]
  | case4 a b c rest ih =>
    have ha := a.toNat_lt
    have hb := b.toNat_lt
    have hc := c.toNat_lt
    simp [hne (a.toNat / 4) (by omega), hne (a.toNat % 4 * 16 + b.toNat / 16) (by omega),
      hne (b.toNat % 16 * 4 + c.toNat / 64) (by omega), hne (c.toNat % 64) (by omega), ih]

/-- No written form holds a semicolon. -/
theorem not_mem_encode (bytes : List UInt8) : ';' ∉ (encode bytes).toList := by
  rw [encode, String.toList_ofList]
  exact not_mem_encodeBytes bytes

/-- **One byte string is written as `null`**: the word is base64 itself. -/
theorem encode_eq_null_iff {bytes : List UInt8} :
    encode bytes = "null" ↔ bytes = [0x9E, 0xE9, 0x65] := by
  have hnull : decode? "null" = some [0x9E, 0xE9, 0x65] := by decide
  constructor
  · intro e
    have hb : some bytes = some [0x9E, 0xE9, 0x65] := by rw [← decode?_encode bytes, e, hnull]
    exact Option.some.inj hb
  · rintro rfl
    exact encode_of_decode? hnull

/-- **No text is written as `null`.** The bytes that are written so are no UTF-8. -/
theorem encode_ne_null {bytes : List UInt8} (h : (Utf8.decode? bytes).isSome) :
    encode bytes ≠ "null" := by
  intro e
  rw [encode_eq_null_iff.1 e] at h
  exact absurd h (by decide)

end Base64
end Text
end StatusCache
