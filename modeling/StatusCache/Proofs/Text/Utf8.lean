/-
# Lenient reading

A lenient reader goes on byte by byte: what a byte writes and where the reader stands afterwards
depends on where it stood before (`exists_step`), and an ASCII byte always writes its own character
and leaves the reader between characters (`lossyFrom_ascii`). What is UTF-8 is read as strict reading
reads it (`decodeLossy_of_decode?`).
-/

import Mathlib.Tactic.IntervalCases
import StatusCache.Text.Utf8

namespace StatusCache
namespace Text
namespace Utf8

variable {b lo hi : UInt8} {bs : List UInt8} {more acc : Nat} {state : Reading}

/-! ### Byte by byte -/

/-- What a reader that stops here has still to write for the sequence it is in. -/
def Reading.broken : Reading → List Char
  | .start => []
  | .inside .. => [replacement]

/-- No open sequence goes on with an ASCII byte. -/
def Reading.Sound : Reading → Prop
  | .start => True
  | .inside (lo, _) _ _ => 0x80 ≤ lo

/-- Nothing is open at the start. -/
theorem sound_start : Reading.start.Sound := trivial

/-- What a lead byte allows next lies beyond ASCII. -/
theorem sound_shape? (h : shape? b = some ((lo, hi), more, acc)) : 0x80 ≤ lo := by
  unfold shape? at h
  simp only at h
  split at h <;> grind

/-- What a first byte opens does not go on with ASCII. -/
theorem sound_firstByte (b : UInt8) : (firstByte b).2.Sound := by
  unfold firstByte
  split
  · trivial
  · split
    next h => exact sound_shape? h
    · trivial

/-- One byte writes something and leads the reader somewhere, whatever comes behind it. -/
theorem exists_step (h : state.Sound) (b : UInt8) :
    ∃ out next, Reading.Sound next ∧ ∀ bs, lossyFrom state (b :: bs) = out ++ lossyFrom next bs := by
  cases state with
  | start => exact ⟨_, _, sound_firstByte b, fun bs => rfl⟩
  | inside range more acc =>
    obtain ⟨lo, hi⟩ := range
    by_cases hin : lo ≤ b ∧ b ≤ hi
    · cases more with
      | zero => exact ⟨[_], .start, trivial, fun bs => by rw [lossyFrom, if_pos hin]; rfl⟩
      | succ more =>
        exact ⟨[], .inside (0x80, 0xBF) more _, UInt8.le_refl _, fun bs => by
          rw [lossyFrom, if_pos hin]
          rfl⟩
    · exact ⟨_, _, sound_firstByte b, fun bs => by rw [lossyFrom, if_neg hin]⟩

/-- An ASCII byte ends whatever sequence is open, and stands for its own character. -/
theorem lossyFrom_ascii (h : state.Sound) (hb : b < 0x80) (bs : List UInt8) :
    lossyFrom state (b :: bs) =
      state.broken ++ Char.ofNat b.toNat :: lossyFrom .start bs := by
  have hfirst : firstByte b = ([Char.ofNat b.toNat], .start) := by rw [firstByte, if_pos hb]
  cases state with
  | start =>
    rw [lossyFrom, hfirst]
    rfl
  | inside range more acc =>
    obtain ⟨lo, hi⟩ := range
    have hout : ¬(lo ≤ b ∧ b ≤ hi) := fun hin =>
      UInt8.not_lt.2 (UInt8.le_trans h hin.1) hb
    rw [lossyFrom, if_neg hout, hfirst]
    rfl

/-- Reading starts anew at an ASCII byte: what stands in front of it is read for itself. -/
theorem lossyFrom_append_ascii (h : state.Sound) (hb : b < 0x80) (front bs : List UInt8) :
    lossyFrom state (front ++ b :: bs) =
      lossyFrom state front ++ Char.ofNat b.toNat :: lossyFrom .start bs := by
  induction front generalizing state with
  | nil =>
    rw [List.nil_append, lossyFrom_ascii h hb]
    cases state <;> rfl
  | cons b' front ih =>
    obtain ⟨out, next, hnext, hstep⟩ := exists_step h b'
    rw [List.cons_append, hstep, hstep, ih hnext, List.append_assoc]

/-! ### What is UTF-8 -/

/-- A byte of a shape opens a sequence of it. -/
theorem lossyFrom_lead (h : shape? b = some ((lo, hi), more, acc)) (bs : List UInt8) :
    lossyFrom .start (b :: bs) = lossyFrom (.inside (lo, hi) more acc) bs := by
  have hlead : ¬b < 0x80 := by
    intro hb
    have hb : b.toNat < 128 := UInt8.lt_iff_toNat_lt.1 hb
    unfold shape? at h
    grind
  rw [lossyFrom, firstByte, if_neg hlead, h]
  rfl

/-- The byte behind a lead adds six bits, if it is in the range that the lead leaves. -/
theorem lossyFrom_tail {k : Nat} (hk : k < 64) (hlo : lo.toNat ≤ k + 0x80)
    (hhi : k + 0x80 ≤ hi.toNat) (bs : List UInt8) :
    lossyFrom (.inside (lo, hi) more acc) (UInt8.ofNat (k + 0x80) :: bs) =
      match more with
      | 0 => Char.ofNat (acc * 64 + k) :: lossyFrom .start bs
      | more + 1 => lossyFrom (.inside (0x80, 0xBF) more (acc * 64 + k)) bs := by
  have hbyte : (UInt8.ofNat (k + 0x80)).toNat = k + 0x80 :=
    UInt8.toNat_ofNat_of_lt' (show k + 0x80 < 256 by omega)
  have hin : lo ≤ UInt8.ofNat (k + 0x80) ∧ UInt8.ofNat (k + 0x80) ≤ hi := by
    rw [UInt8.le_iff_toNat_le, UInt8.le_iff_toNat_le, hbyte]
    exact ⟨hlo, hhi⟩
  have hbits : (k + 0x80) % 64 = k := by omega
  cases more <;> simp only [lossyFrom, if_pos hin, hbyte, hbits]

/-- The lead bytes of two. -/
theorem shape?_two {q : Nat} (h : 2 ≤ q) (h' : q < 32) :
    shape? (UInt8.ofNat (q + 0xC0)) = some ((0x80, 0xBF), 0, q) := by
  interval_cases q <;> rfl

/-- Behind a lead of three bytes, what two bytes write is left out, and so are the surrogates. -/
theorem shape?_three {q : Nat} (h : q < 16) :
    shape? (UInt8.ofNat (q + 0xE0)) =
      some ((if q = 0 then 0xA0 else 0x80, if q = 13 then 0x9F else 0xBF), 1, q) := by
  interval_cases q <;> rfl

/-- Behind a lead of four bytes, what three bytes write is left out, and what is no character. -/
theorem shape?_four {q : Nat} (h : q ≤ 4) :
    shape? (UInt8.ofNat (q + 0xF0)) =
      some ((if q = 0 then 0x90 else 0x80, if q = 4 then 0x8F else 0xBF), 2, q) := by
  interval_cases q <;> rfl

/-- The bytes of a character are read as this character. -/
theorem lossyFrom_utf8EncodeChar (c : Char) (bs : List UInt8) :
    lossyFrom .start (String.utf8EncodeChar c ++ bs) = c :: lossyFrom .start bs := by
  have hvalid : c.val.toNat < 0xD800 ∨ 0xDFFF < c.val.toNat ∧ c.val.toNat < 0x110000 := c.valid
  have hchar : Char.ofNat c.val.toNat = c := Char.ofNat_toNat c
  unfold String.utf8EncodeChar
  simp only
  -- From here on the character is a number, and the cases are those of its encoding.
  generalize c.val.toNat = v at hvalid hchar
  split
  next hone =>
    have hbyte : (UInt8.ofNat v).toNat = v := UInt8.toNat_ofNat_of_lt' (show v < 256 by omega)
    have hascii : UInt8.ofNat v < 0x80 := by
      rw [UInt8.lt_iff_toNat_lt, hbyte]
      exact Nat.lt_succ_of_le hone
    rw [List.singleton_append, lossyFrom_ascii sound_start hascii, hbyte, hchar]
    rfl
  split
  next htwo =>
    have hlead : v / 64 % 32 = v / 64 := by omega
    have hv : v / 64 * 64 + v % 64 = v := by omega
    simp only [List.cons_append, List.nil_append]
    rw [hlead, lossyFrom_lead (shape?_two (by omega) (by omega)),
      lossyFrom_tail (by omega) (Nat.le_add_left _ _) (by simp; omega)]
    simp only [hv, hchar]
  split
  next hthree =>
    have hlead : v / 4096 % 16 = v / 4096 := by omega
    -- The second byte has a range of its own, without overlong forms and without surrogates.
    have hlo : (if v / 4096 = 0 then 0xA0 else 0x80 : UInt8).toNat ≤ v / 64 % 64 + 0x80 := by
      split <;> simp
      omega
    have hhi : v / 64 % 64 + 0x80 ≤ (if v / 4096 = 13 then 0x9F else 0xBF : UInt8).toNat := by
      split <;> simp <;> omega
    have hv : (v / 4096 * 64 + v / 64 % 64) * 64 + v % 64 = v := by omega
    simp only [List.cons_append, List.nil_append]
    rw [hlead, lossyFrom_lead (shape?_three (by omega)), lossyFrom_tail (by omega) hlo hhi]
    simp only
    rw [lossyFrom_tail (by omega) (Nat.le_add_left _ _) (by simp; omega)]
    simp only [hv, hchar]
  next hfour =>
    have hlead : v / 262144 % 8 = v / 262144 := by omega
    -- Here it is without overlong forms and without what is beyond U+10FFFF.
    have hlo : (if v / 262144 = 0 then 0x90 else 0x80 : UInt8).toNat ≤ v / 4096 % 64 + 0x80 := by
      split <;> simp
      omega
    have hhi : v / 4096 % 64 + 0x80 ≤ (if v / 262144 = 4 then 0x8F else 0xBF : UInt8).toNat := by
      split <;> simp <;> omega
    have hv : ((v / 262144 * 64 + v / 4096 % 64) * 64 + v / 64 % 64) * 64 + v % 64 = v := by omega
    simp only [List.cons_append, List.nil_append]
    rw [hlead, lossyFrom_lead (shape?_four (by omega)), lossyFrom_tail (by omega) hlo hhi]
    simp only
    rw [lossyFrom_tail (by omega) (Nat.le_add_left _ _) (by simp; omega)]
    simp only
    rw [lossyFrom_tail (by omega) (Nat.le_add_left _ _) (by simp; omega)]
    simp only [hv, hchar]

/-- What a text is written as is read as this text. -/
theorem decodeLossy_encode (s : String) : decodeLossy (encode s) = s := by
  have hbytes : encode s = s.toList.flatMap String.utf8EncodeChar := by
    rw [encode, ← String.utf8Encode_toList, List.utf8Encode]
    simp
  have hread : ∀ cs : List Char, lossyFrom .start (cs.flatMap String.utf8EncodeChar) = cs := by
    intro cs
    induction cs with
    | nil => rfl
    | cons c cs ih => rw [List.flatMap_cons, lossyFrom_utf8EncodeChar, ih]
  rw [decodeLossy, hbytes, hread, String.ofList_toList]

/-- **What is UTF-8 is read as it is**, and nothing is replaced. -/
theorem decodeLossy_of_decode? {s : String} (h : decode? bs = some s) : decodeLossy bs = s := by
  rw [← encode_of_decode? h, decodeLossy_encode]

end Utf8
end Text
end StatusCache
