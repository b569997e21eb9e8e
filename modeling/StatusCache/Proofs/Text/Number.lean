/-
# Written numbers read back

A reader of `bounded?` gives a number back exactly when it lies in the range of the reader
(`bounded?_ofInt`), and never a number outside that range (`bounded?_bounds`). A written number
holds digits and perhaps a sign, so it is neither a separator nor a word.
-/

import StatusCache.Text.Number

namespace StatusCache
namespace Text
namespace Number

/-- The numbers that a signed integer of 64 bits can be. -/
def Fits64 (n : Int) : Prop := -9223372036854775808 ≤ n ∧ n ≤ 9223372036854775807

instance (n : Int) : Decidable (Fits64 n) :=
  inferInstanceAs (Decidable (-9223372036854775808 ≤ n ∧ n ≤ 9223372036854775807))

/-- Decimal digits are digits. -/
theorem isDigit_of_mem_toDigits {n : Nat} {c : Char} (h : c ∈ Nat.toDigits 10 n) :
    c.isDigit = true :=
  Nat.isDigit_of_mem_toDigits (by decide) (by decide) h

/-- A number is read back from its digits. -/
theorem digits?_toDigits (n : Nat) : digits? (Nat.toDigits 10 n) = some n := by
  have hall : (Nat.toDigits 10 n).all Char.isDigit = true :=
    List.all_eq_true.2 fun _ hc => isDigit_of_mem_toDigits hc
  rw [digits?, if_pos ⟨Nat.toDigits_ne_nil, hall⟩, Nat.ofDigitChars_ten_toDigits]

/-- Digits without a sign are read as they stand. -/
theorem bounded?_of_isDigit {c : Char} (hc : c.isDigit = true) (lo hi : Int) (cs : List Char) :
    bounded? lo hi (String.ofList (c :: cs)) = (do
      let n ← digits? (c :: cs)
      if lo ≤ (n : Int) ∧ (n : Int) ≤ hi then some (n : Int) else none) := by
  have hplus : c ≠ '+' := by rintro rfl; exact absurd hc (by decide)
  have hminus : c ≠ '-' := by rintro rfl; exact absurd hc (by decide)
  rw [bounded?, String.toList_ofList]
  split
  next h => exact absurd (List.cons.inj h).1 hplus
  next h => exact absurd (List.cons.inj h).1 hminus
  · cases digits? (c :: cs) <;> rfl

/-- A number within bounds is read back. -/
theorem bounded?_ofNat {lo hi : Int} {n : Nat} (hlo : lo ≤ n) (hhi : (n : Int) ≤ hi) :
    bounded? lo hi (ofNat n) = some (n : Int) := by
  have hread := digits?_toDigits n
  rw [ofNat]
  cases hcs : Nat.toDigits 10 n with
  | nil => exact absurd hcs Nat.toDigits_ne_nil
  | cons c cs =>
    have hc : c.isDigit = true := isDigit_of_mem_toDigits (hcs ▸ List.mem_cons_self)
    rw [bounded?_of_isDigit hc, ← hcs, hread, Option.bind_eq_bind, Option.bind_some,
      if_pos ⟨hlo, hhi⟩]

/-- **A written number within range reads back.** -/
theorem bounded?_ofInt {lo hi n : Int} (hlo : lo ≤ n) (hhi : n ≤ hi) :
    bounded? lo hi (ofInt n) = some n := by
  cases n with
  | ofNat n => exact bounded?_ofNat hlo hhi
  | negSucc n =>
    have hneg : -((n + 1 : Nat) : Int) = Int.negSucc n := rfl
    have hlo₀ : lo < 0 := by omega
    simp only [bounded?, ofInt, String.toList_ofList, if_pos hlo₀, digits?_toDigits,
      Option.map_some, Option.bind_eq_bind, Option.bind_some, Option.pure_def, hneg]
    rw [if_pos ⟨hlo, hhi⟩]

/-- A number that reads lies within range. -/
theorem bounded?_bounds {lo hi n : Int} {s : String} (h : bounded? lo hi s = some n) :
    lo ≤ n ∧ n ≤ hi := by
  have clipped : ∀ value : Option Int,
      (value.bind fun m => if lo ≤ m ∧ m ≤ hi then some m else none) = some n →
        lo ≤ n ∧ n ≤ hi := by
    intro value hvalue
    obtain ⟨m, _, hm⟩ := Option.bind_eq_some_iff.1 hvalue
    split at hm
    next hb =>
      obtain rfl := Option.some.inj hm
      exact hb
    · exact absurd hm (by simp)
  unfold bounded? at h
  split at h
  · exact clipped _ h
  · split at h
    · exact clipped _ h
    · exact clipped none h
  · exact clipped _ h

/-- An integer of 64 bits is read back. -/
theorem int64?_ofInt {n : Int} (h : Fits64 n) : int64? (ofInt n) = some n := bounded?_ofInt h.1 h.2

/-- What is read as an integer of 64 bits fits. -/
theorem fits64_of_int64? {s : String} {n : Int} (h : int64? s = some n) : Fits64 n :=
  bounded?_bounds h

/-- The value of a field of 64 bits fits, if the default does. -/
theorem fits64_getD_int64? {d : Int} (hd : Fits64 d) (s : String) : Fits64 ((int64? s).getD d) := by
  cases h : int64? s with
  | none => exact hd
  | some n => exact fits64_of_int64? h

/-- A number of 31 bits is read back as an integer of 32 bits. -/
theorem int32?_ofNat {n : Nat} (h : n < 2147483648) : int32? (ofNat n) = some (n : Int) :=
  bounded?_ofNat (by omega) (by omega)

/-- A number of 32 bits is read back. -/
theorem nat32?_ofNat {n : Nat} (h : n < 4294967296) : nat32? (ofNat n) = some n := by
  rw [nat32?, bounded?_ofNat (by omega) (by omega), Option.map_some, Int.toNat_natCast]

/-! ### The characters of a written number -/

/-- A number is written with digits. -/
theorem isDigit_of_mem_ofNat {n : Nat} {c : Char} (h : c ∈ (ofNat n).toList) :
    c.isDigit = true := by
  rw [ofNat, String.toList_ofList] at h
  exact isDigit_of_mem_toDigits h

/-- An integer is written with digits and a minus. -/
theorem mem_ofInt {n : Int} {c : Char} (h : c ∈ (ofInt n).toList) : c = '-' ∨ c.isDigit = true := by
  cases n with
  | ofNat n => exact .inr (isDigit_of_mem_ofNat h)
  | negSucc n =>
    rw [ofInt, String.toList_ofList] at h
    exact (List.mem_cons.1 h).imp_right isDigit_of_mem_toDigits

/-- No number is written as a text with some other character in it. -/
theorem ofInt_ne {n : Int} {s : String} {c : Char} (hc : c ∈ s.toList) (hd : c.isDigit = false)
    (hm : c ≠ '-') : ofInt n ≠ s := by
  rintro rfl
  rcases mem_ofInt hc with h | h
  · exact hm h
  · exact absurd h (by simp [hd])

/-- A text that holds something other than a digit is no number. -/
theorem ofNat_ne {n : Nat} {s : String} {c : Char} (hc : c ∈ s.toList) (hd : c.isDigit = false) :
    ofNat n ≠ s := by
  rintro rfl
  exact absurd (isDigit_of_mem_ofNat hc) (by simp [hd])

end Number
end Text
end StatusCache
