/-
# Percent escapes

An escape is a `%` with two hexadecimal digits behind it, and stands for the byte that they write.
Decoding a URL replaces its escapes and keeps every other byte (`Url.Unescaped`), and then reads the
bytes leniently. So it does for every URL but those with a `%`, a `+` and a digit in a row: there the
sign and the digit are read as a number, and the three bytes are replaced by one
(`decode_unescaped_iff`).
-/

import Mathlib.Tactic.IntervalCases
import Mathlib.Tactic.SplitIfs
import StatusCache.Proofs.Text.Utf8
import StatusCache.Url

namespace StatusCache

namespace Url

open Text.Utf8 (lossyFrom decodeLossy Reading)

variable {b d hi lo : UInt8} {bytes out out' rest xs ys : List UInt8} {h l m n k : Nat}

/-! ### Digits -/

/-- A byte writes a hexadecimal digit, in lower or in upper case. -/
def IsDigit (d : UInt8) (n : Nat) : Prop :=
  n < 16 ∧ (d = n.digitChar.toUInt8 ∨ d = n.digitChar.toUpper.toUInt8)

instance (d : UInt8) (n : Nat) : Decidable (IsDigit d n) := inferInstanceAs (Decidable (_ ∧ _))

/-- The digits that are read are the hexadecimal ones, in both cases. -/
theorem hexDigit?_eq_some : hexDigit? d = some n ↔ IsDigit d n := by
  constructor
  · intro hdigit
    have hd : d = UInt8.ofNat d.toNat := UInt8.ofNat_toNat.symm
    unfold hexDigit? at hdigit
    simp only at hdigit
    generalize d.toNat = v at hdigit hd
    subst hd
    split_ifs at hdigit with hrange hrange hrange
    all_goals
      obtain rfl := Option.some.inj hdigit
      obtain ⟨hlow, hhigh⟩ := hrange
      interval_cases v <;> decide
  · rintro ⟨hn, hd⟩
    interval_cases n <;> rcases hd with rfl | rfl <;> rfl

/-- A byte is a digit of one value at most. -/
theorem IsDigit.inj (hm : IsDigit d m) (hn : IsDigit d n) : m = n :=
  Option.some.inj ((hexDigit?_eq_some.2 hm).symm.trans (hexDigit?_eq_some.2 hn))

/-- Neither a `%` nor a plus sign is a digit, and digits are ASCII. -/
theorem IsDigit.byte (hd : IsDigit d n) : d ≠ 37 ∧ d ≠ 43 ∧ d < 0x80 := by
  obtain ⟨hn, hd⟩ := hd
  interval_cases n <;> rcases hd with rfl | rfl <;> decide

/-- Two bytes are taken for a number if they are two digits, or a plus sign and a digit. -/
theorem escaped?_eq_some : escaped? hi lo = some b ↔
    (∃ h l, IsDigit hi h ∧ IsDigit lo l ∧ b = UInt8.ofNat (16 * h + l)) ∨
      hi = 43 ∧ ∃ l, IsDigit lo l ∧ b = UInt8.ofNat l := by
  unfold escaped?
  split
  next hplus =>
    have hnot : ∀ h, ¬IsDigit hi h := fun h hh => hh.byte.2.1 hplus
    simp [hplus ▸ hnot, hplus, ← hexDigit?_eq_some, eq_comm]
  next hplus =>
    simp only [hplus, false_and, or_false, ← hexDigit?_eq_some]
    cases hexDigit? hi with
    | none => simp
    | some h =>
      cases hexDigit? lo with
      | none => simp
      | some l => simp [eq_comm]

/-! ### Escapes -/

/-- Bytes begin with an escape: a `%` and two digits. -/
def BeginsEscape (bytes : List UInt8) : Prop :=
  ∃ hi lo h l rest, bytes = 37 :: hi :: lo :: rest ∧ IsDigit hi h ∧ IsDigit lo l

/-- Bytes with each escape replaced by the byte that its digits write, from left to right, and every
other byte kept. -/
inductive Unescaped : List UInt8 → List UInt8 → Prop
  | nil : Unescaped [] []
  | escape {hi lo : UInt8} {h l : Nat} {rest out : List UInt8} (hhi : IsDigit hi h)
      (hlo : IsDigit lo l) (hrest : Unescaped rest out) :
      Unescaped (37 :: hi :: lo :: rest) (UInt8.ofNat (16 * h + l) :: out)
  | keep {b : UInt8} {rest out : List UInt8} (hb : ¬BeginsEscape (b :: rest))
      (hrest : Unescaped rest out) : Unescaped (b :: rest) (b :: out)

/-- An escape begins with a percent sign and two digits. -/
theorem beginsEscape_cons : BeginsEscape (b :: rest) ↔
    b = 37 ∧ ∃ hi lo h l more, rest = hi :: lo :: more ∧ IsDigit hi h ∧ IsDigit lo l := by
  simp only [BeginsEscape, List.cons.injEq, and_assoc, exists_and_left]

/-- What begins with no escape keeps its first byte. -/
theorem Unescaped.of_cons (hout : Unescaped (b :: rest) out) (hb : ¬BeginsEscape (b :: rest)) :
    ∃ out', out = b :: out' ∧ Unescaped rest out' := by
  cases hout with
  | escape hhi hlo => exact absurd ⟨_, _, _, _, _, rfl, hhi, hlo⟩ hb
  | keep _ hrest => exact ⟨_, rfl, hrest⟩

/-- All bytes can be unescaped. -/
theorem exists_unescaped (bytes : List UInt8) : ∃ out, Unescaped bytes out := by
  induction hn : bytes.length using Nat.strong_induction_on generalizing bytes with
  | _ n ih =>
    by_cases hbegins : BeginsEscape bytes
    · obtain ⟨hi, lo, h, l, rest, rfl, hhi, hlo⟩ := hbegins
      obtain ⟨out, hout⟩ := ih rest.length (by simp [← hn]; omega) rest rfl
      exact ⟨_, .escape hhi hlo hout⟩
    · cases bytes with
      | nil => exact ⟨[], .nil⟩
      | cons b rest =>
        obtain ⟨out, hout⟩ := ih rest.length (by simp [← hn]) rest rfl
        exact ⟨_, .keep hbegins hout⟩

/-- Bytes are unescaped in one way. -/
theorem Unescaped.unique (hout : Unescaped bytes out) (hout' : Unescaped bytes out') :
    out = out' := by
  induction hout generalizing out' with
  | nil =>
    cases hout'
    rfl
  | escape hhi hlo hrest ih =>
    cases hout' with
    | escape hhi' hlo' hrest' => rw [hhi.inj hhi', hlo.inj hlo', ih hrest']
    | keep hb => exact absurd ⟨_, _, _, _, _, rfl, hhi, hlo⟩ hb
  | keep hb hrest ih =>
    cases hout' with
    | escape hhi hlo => exact absurd ⟨_, _, _, _, _, rfl, hhi, hlo⟩ hb
    | keep hb' hrest' => rw [ih hrest']

/-! ### Signed digits -/

/-- A `%`, a plus sign and a digit stand in a row. -/
def HoldsSigned (bytes : List UInt8) : Prop := ∃ d n, IsDigit d n ∧ [37, 43, d] <:+: bytes

/-- A percent sign, a plus and a digit stand at the front, or further on. -/
theorem holdsSigned_cons : HoldsSigned (b :: rest) ↔
    (∃ d n more, b = 37 ∧ rest = 43 :: d :: more ∧ IsDigit d n) ∨ HoldsSigned rest := by
  unfold HoldsSigned
  simp only [List.infix_cons_iff]
  constructor
  · rintro ⟨d, n, hd, ⟨more, hmore⟩ | hrest⟩
    · obtain ⟨rfl, rfl⟩ := List.cons.inj hmore
      exact .inl ⟨d, n, more, rfl, rfl, hd⟩
    · exact .inr ⟨d, n, hd, hrest⟩
  · rintro (⟨d, n, more, rfl, rfl, hd⟩ | ⟨d, n, hd, hrest⟩)
    · exact ⟨d, n, hd, .inl ⟨more, rfl⟩⟩
    · exact ⟨d, n, hd, .inr hrest⟩

/-- Bytes that differ in so many places: in one of them there is a control byte, in the other a `%`,
a plus sign and a digit. -/
inductive Differ : Nat → List UInt8 → List UInt8 → Prop
  | nil : Differ 0 [] []
  | same {k : Nat} {b : UInt8} {xs ys : List UInt8} (h : Differ k xs ys) :
      Differ k (b :: xs) (b :: ys)
  | signed {k n : Nat} {b d : UInt8} {xs ys : List UInt8} (hb : b < 0x80) (hd : IsDigit d n)
      (h : Differ k xs ys) : Differ (k + 1) (b :: xs) (37 :: 43 :: d :: ys)

/-- What differs in no place is equal. -/
theorem Differ.eq (h : Differ 0 xs ys) : xs = ys := by
  generalize hk : 0 = k at h
  induction h with
  | nil => rfl
  | same _ ih => rw [ih hk]
  | signed => cases hk

/-- Every difference shows in the text: it is longer by two characters on the one side. -/
theorem Differ.length_lossyFrom (h : Differ k xs ys) {state : Reading} (hstate : state.Sound) :
    (lossyFrom state ys).length = (lossyFrom state xs).length + 2 * k := by
  induction h generalizing state with
  | nil => rfl
  | same _ ih =>
    obtain ⟨out, next, hnext, hstep⟩ := Text.Utf8.exists_step hstate _
    rw [hstep, hstep, List.length_append, List.length_append, ih hnext, Nat.add_assoc]
  | signed hb hd _ ih =>
    rw [Text.Utf8.lossyFrom_ascii hstate hb, Text.Utf8.lossyFrom_ascii hstate (by decide),
      Text.Utf8.lossyFrom_ascii Text.Utf8.sound_start (by decide),
      Text.Utf8.lossyFrom_ascii Text.Utf8.sound_start hd.byte.2.2]
    simp only [Reading.broken, List.length_append, List.length_cons, List.nil_append]
    have := ih Text.Utf8.sound_start
    omega

/-- A byte that begins neither an escape nor signed digits makes no difference. -/
theorem exists_differ_cons (hout : Unescaped (b :: rest) out) (hb : ¬BeginsEscape (b :: rest))
    (hsigned : HoldsSigned (b :: rest) ↔ HoldsSigned rest)
    (ih : ∀ {out}, Unescaped rest out →
      ∃ k, Differ k xs out ∧ (k = 0 ↔ ¬HoldsSigned rest)) :
    ∃ k, Differ k (b :: xs) out ∧ (k = 0 ↔ ¬HoldsSigned (b :: rest)) := by
  obtain ⟨out', rfl, hout'⟩ := hout.of_cons hb
  obtain ⟨k, hdiffer, hk⟩ := ih hout'
  exact ⟨k, hdiffer.same, by rw [hk, hsigned]⟩

/-- What decoding makes of the bytes differs from the unescaped ones where signed digits stand. -/
theorem exists_differ (hout : Unescaped bytes out) :
    ∃ k, Differ k (unescape bytes) out ∧ (k = 0 ↔ ¬HoldsSigned bytes) := by
  -- The number counts the signed digits that have been met.
  fun_induction unescape bytes generalizing out with
  | case1 =>
    cases hout
    exact ⟨0, .nil, by simp [HoldsSigned]⟩
  | case2 hi lo rest b hb ih =>
    rcases escaped?_eq_some.1 hb with ⟨h, l, hhi, hlo, rfl⟩ | ⟨rfl, l, hlo, rfl⟩
    · -- an escape, with no sign among its bytes
      cases hout with
      | keep hnone => exact absurd ⟨_, _, _, _, _, rfl, hhi, hlo⟩ hnone
      | escape hhi' hlo' hrest =>
        obtain ⟨k, hdiffer, hk⟩ := ih hrest
        rw [hhi.inj hhi', hlo.inj hlo']
        refine ⟨k, hdiffer.same, ?_⟩
        simp [holdsSigned_cons, hhi.byte, hlo.byte, hk]
    · -- signed digits, which are three bytes to keep
      have hsign : ¬BeginsEscape (37 :: 43 :: lo :: rest) := by
        rw [beginsEscape_cons]
        rintro ⟨-, hi, lo, h, l, more, heq, hhi, -⟩
        cases heq
        exact hhi.byte.2.1 rfl
      have hplus : ¬BeginsEscape (43 :: lo :: rest) := by simp [beginsEscape_cons]
      have hdigit : ¬BeginsEscape (lo :: rest) := by simp [beginsEscape_cons, hlo.byte]
      obtain ⟨out₁, rfl, hout₁⟩ := hout.of_cons hsign
      obtain ⟨out₂, rfl, hout₂⟩ := hout₁.of_cons hplus
      obtain ⟨out₃, rfl, hout₃⟩ := hout₂.of_cons hdigit
      obtain ⟨k, hdiffer, -⟩ := ih hout₃
      have hcontrol : UInt8.ofNat l < 0x80 := by
        obtain ⟨hl, -⟩ := hlo
        interval_cases l <;> decide
      refine ⟨k + 1, hdiffer.signed hcontrol hlo, ?_⟩
      simpa using holdsSigned_cons.2 (.inl ⟨lo, l, rest, rfl, rfl, hlo⟩)
  | case3 hi lo rest hnone ih =>
    have hdigits : ¬∃ b, escaped? hi lo = some b := by simp [hnone]
    simp only [escaped?_eq_some] at hdigits
    refine exists_differ_cons hout (fun hbegins => ?_) (holdsSigned_cons.trans ?_) ih
    · obtain ⟨-, hi', lo', h, l, more, heq, hhi, hlo⟩ := beginsEscape_cons.1 hbegins
      cases heq
      exact hdigits ⟨_, .inl ⟨h, l, hhi, hlo, rfl⟩⟩
    · refine or_iff_right fun ⟨d, n, more, _, heq, hd⟩ => ?_
      cases heq
      exact hdigits ⟨_, .inr ⟨rfl, n, hd, rfl⟩⟩
  | case4 b rest hother ih =>
    refine exists_differ_cons hout (fun hbegins => ?_) (holdsSigned_cons.trans ?_) ih
    · obtain ⟨hb, hi, lo, h, l, more, heq, -⟩ := beginsEscape_cons.1 hbegins
      exact hother hi lo more hb heq
    · exact or_iff_right fun ⟨d, n, more, hb, heq, _⟩ => hother 43 d more hb heq

/-- **Decoding replaces the escapes of a URL, keeps every other byte, and reads the result
leniently**, so that what is UTF-8 is read as it is, if and only if nowhere in the URL a `%`, a plus
sign and a hexadecimal digit stand in a row. -/
theorem decode_unescaped_iff (url : String) :
    ∃ bytes, (∀ out, Unescaped (Text.Utf8.encode url) out ↔ out = bytes) ∧
      (∀ text, Text.Utf8.decode? bytes = some text → decodeLossy bytes = text) ∧
      (decode url = decodeLossy bytes ↔ ¬HoldsSigned (Text.Utf8.encode url)) := by
  obtain ⟨bytes, hbytes⟩ := exists_unescaped (Text.Utf8.encode url)
  obtain ⟨k, hdiffer, hk⟩ := exists_differ hbytes
  refine ⟨bytes, fun out => ⟨fun hout => hout.unique hbytes, fun hout => hout ▸ hbytes⟩,
    fun text => Text.Utf8.decodeLossy_of_decode?, ?_⟩
  rw [← hk, decode]
  constructor
  · intro hsame
    have hlength := hdiffer.length_lossyFrom Text.Utf8.sound_start
    rw [decodeLossy, decodeLossy] at hsame
    rw [String.ofList_injective hsame] at hlength
    omega
  · rintro rfl
    rw [hdiffer.eq]

/-- Signed digits are no escape, but decoding replaces them. -/
theorem decode_unescaped_iff_plus :
    Unescaped (Text.Utf8.encode "%+5") (Text.Utf8.encode "%+5") ∧ decode "%+5" ≠ "%+5" := by
  have hunescaped : Unescaped [37, 43, 53] [37, 43, 53] := by
    refine .keep ?_ (.keep ?_ (.keep ?_ .nil)) <;> rw [beginsEscape_cons]
    · rintro ⟨-, hi, lo, h, l, more, heq, hhi, -⟩
      cases heq
      exact hhi.byte.2.1 rfl
    · exact fun hbegins => absurd hbegins.1 (by decide)
    · exact fun hbegins => absurd hbegins.1 (by decide)
  obtain ⟨bytes, hbytes, htext, hiff⟩ := decode_unescaped_iff "%+5"
  obtain rfl : Text.Utf8.encode "%+5" = bytes := (hbytes _).1 hunescaped
  rw [htext "%+5" (Text.Utf8.decode?_encode _)] at hiff
  have hsigned : HoldsSigned (Text.Utf8.encode "%+5") := ⟨53, 5, by decide, List.infix_rfl⟩
  exact ⟨hunescaped, fun hsame => hiff.1 hsame hsigned⟩

end Url
end StatusCache
