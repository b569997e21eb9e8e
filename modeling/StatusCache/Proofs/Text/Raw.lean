/-
# Texts as the file system has them

A text is written as bytes that tell it (`ofText_inj`), and read from them again (`text_ofText`): a
slash among the bytes is one in the text, so that the runs of the text are those of the bytes
(`split_ofText`). Bytes that are no UTF-8 are not those of any text. What they read as holds no
character of ASCII that is not among them (`not_mem_text`).
-/

import StatusCache.Proofs.Text.Segments
import StatusCache.Proofs.Text.Utf8
import StatusCache.Text.Raw

namespace StatusCache

namespace Text.Utf8

variable {b : UInt8} {bs : List UInt8} {state : Reading} {c : Char}

/-! ### ASCII is what it is -/

/-- A text is encoded character by character. -/
theorem encode_eq_flatMap (s : String) : encode s = s.toList.flatMap String.utf8EncodeChar := by
  rw [encode, ← String.utf8Encode_toList, List.utf8Encode]
  simp

/-- The bytes of a character are those of an ASCII character only for that one. -/
theorem eq_of_mem_utf8EncodeChar {c a : Char} (ha : a.toNat < 128)
    (h : UInt8.ofNat a.toNat ∈ String.utf8EncodeChar c) : c = a := by
  have hbyte : (UInt8.ofNat a.toNat).toNat = a.toNat :=
    UInt8.toNat_ofNat_of_lt' (show a.toNat < 256 by omega)
  have hne : ∀ n, 128 ≤ n → n < 256 → UInt8.ofNat a.toNat ≠ UInt8.ofNat n := by
    intro n hlow hhigh heq
    have := congrArg UInt8.toNat heq
    rw [hbyte, UInt8.toNat_ofNat_of_lt' (show n < 256 from hhigh)] at this
    omega
  have hvalid : c.val.toNat < 0xD800 ∨ 0xDFFF < c.val.toNat ∧ c.val.toNat < 0x110000 := c.valid
  unfold String.utf8EncodeChar at h
  simp only at h
  split_ifs at h with hone htwo hthree
  · have heq := congrArg UInt8.toNat (List.mem_singleton.1 h)
    rw [hbyte, UInt8.toNat_ofNat_of_lt' (show c.val.toNat < 256 by omega)] at heq
    exact (Char.toNat_inj.1 heq).symm
  -- All bytes of a longer sequence are beyond ASCII.
  all_goals
    exfalso
    simp only [List.mem_cons, List.not_mem_nil, or_false] at h
  · rcases h with h | h <;> exact hne _ (by omega) (by omega) h
  · rcases h with h | h | h <;> exact hne _ (by omega) (by omega) h
  · rcases h with h | h | h | h <;> exact hne _ (by omega) (by omega) h

/-- An open sequence stands for a character beyond ASCII, however it goes on. -/
def Reading.Wide : Reading → Prop
  | .start => True
  | .inside (lo, hi) more acc =>
    0x80 ≤ lo.toNat ∧ hi.toNat ≤ 0xBF ∧ 128 ≤ (acc * 64 + (lo.toNat - 0x80)) * 64 ^ more

/-- Nothing is open at the start. -/
theorem wide_start : Reading.start.Wide := trivial

/-- What a first byte opens stands for a character beyond ASCII. -/
theorem wide_firstByte (b : UInt8) : (firstByte b).2.Wide := by
  unfold firstByte
  split
  · trivial
  · split
    next range more acc h =>
      unfold shape? at h
      simp only at h
      split_ifs at h <;> cases h <;> simp [Reading.Wide] <;> omega
    · trivial

/-- The character of a number has that number, or zero if there is no such character. -/
theorem toNat_ofNat (n : Nat) : (Char.ofNat n).toNat = if n.isValidChar then n else 0 := by
  by_cases h : n.isValidChar
  · rw [if_pos h, show Char.ofNat n = Char.ofNatAux n h from dif_pos h]
    rfl
  · rw [if_neg h, show Char.ofNat n = ⟨0, .inl (by decide)⟩ from dif_neg h]
    rfl

/-- An ASCII character has no number beyond ASCII. -/
theorem ne_ofNat {n : Nat} (hc : 0 < c.toNat) (hc' : c.toNat < 128) (hn : 128 ≤ n) :
    c ≠ Char.ofNat n := by
  rintro rfl
  rw [toNat_ofNat] at hc hc'
  by_cases hvalid : n.isValidChar
  · rw [if_pos hvalid] at hc'
    omega
  · rw [if_neg hvalid] at hc
    omega

/-- A first byte reads as an ASCII character only if it is that. -/
theorem mem_firstByte (hc : 0 < c.toNat) (hc' : c.toNat < 128) (h : c ∈ (firstByte b).1) :
    b = UInt8.ofNat c.toNat := by
  unfold firstByte at h
  split at h
  next hb =>
    have hlow : b.toNat < 128 := UInt8.lt_iff_toNat_lt.1 hb
    rw [List.mem_singleton.1 h, toNat_ofNat, if_pos (.inl (by omega)), UInt8.ofNat_toNat]
  · split at h
    · cases h
    · exact absurd (List.mem_singleton.1 h) (ne_ofNat hc hc' (by decide))

/-- However an open sequence goes on, it stands for a character beyond ASCII. -/
theorem Reading.Wide.le {lo hi : UInt8} {more acc : Nat}
    (h : (Reading.inside (lo, hi) more acc).Wide) (hb : lo ≤ b ∧ b ≤ hi) :
    128 ≤ (acc * 64 + b.toNat % 64) * 64 ^ more := by
  obtain ⟨hlo, hhi, hwide⟩ := h
  have hlow := UInt8.le_iff_toNat_le.1 hb.1
  have hhigh := UInt8.le_iff_toNat_le.1 hb.2
  calc 128 ≤ (acc * 64 + (lo.toNat - 0x80)) * 64 ^ more := hwide
    _ ≤ (acc * 64 + b.toNat % 64) * 64 ^ more := Nat.mul_le_mul_right _ (by omega)

/-- A sequence stays open until its last byte. -/
theorem Reading.Wide.next {lo hi : UInt8} {more acc : Nat}
    (h : (Reading.inside (lo, hi) (more + 1) acc).Wide) (hb : lo ≤ b ∧ b ≤ hi) :
    (Reading.inside (0x80, 0xBF) more (acc * 64 + b.toNat % 64)).Wide := by
  refine ⟨by decide, by decide, ?_⟩
  calc 128 ≤ (acc * 64 + b.toNat % 64) * 64 ^ (more + 1) := h.le hb
    _ = (acc * 64 + b.toNat % 64) * 64 * 64 ^ more := by rw [Nat.pow_succ', ← Nat.mul_assoc]

/-- **A character of ASCII is read from its byte only**: no sequence of several bytes writes one. -/
theorem mem_of_mem_lossyFrom (hstate : state.Wide) (hc : 0 < c.toNat) (hc' : c.toNat < 128)
    (h : c ∈ lossyFrom state bs) : UInt8.ofNat c.toNat ∈ bs := by
  have hbroken : c ≠ replacement := ne_ofNat hc hc' (by decide)
  induction bs generalizing state with
  | nil =>
    cases state with
    | start => cases h
    | inside => exact absurd (List.mem_singleton.1 h) hbroken
  | cons b bs ih =>
    have hfirst : c ∈ (firstByte b).1 ++ lossyFrom (firstByte b).2 bs →
        UInt8.ofNat c.toNat ∈ b :: bs := by
      intro h
      rcases List.mem_append.1 h with h | h
      · exact mem_firstByte hc hc' h ▸ List.mem_cons_self
      · exact List.mem_cons_of_mem b (ih (wide_firstByte b) h)
    cases state with
    | start => exact hfirst h
    | inside range more acc =>
      simp only [lossyFrom] at h
      split at h
      next hin =>
        cases more with
        | zero =>
          rcases List.mem_cons.1 h with h | h
          · exact absurd h (ne_ofNat hc hc' (by simpa using hstate.le hin))
          · exact List.mem_cons_of_mem b (ih wide_start h)
        | succ more => exact List.mem_cons_of_mem b (ih (hstate.next hin) h)
      · rw [List.cons_append] at h
        rcases List.mem_cons.1 h with h | h
        · exact absurd h hbroken
        · exact hfirst h

/-- What is read of an open sequence starts with a character beyond ASCII. -/
theorem exists_of_lossyFrom_inside {range : UInt8 × UInt8} {more acc : Nat}
    (h : (Reading.inside range more acc).Wide) (bs : List UInt8) :
    ∃ n cs, 128 ≤ n ∧ lossyFrom (.inside range more acc) bs = Char.ofNat n :: cs := by
  induction bs generalizing range more acc with
  | nil => exact ⟨0xFFFD, [], by decide, rfl⟩
  | cons b bs ih =>
    unfold lossyFrom
    split
    next hin =>
      cases more with
      | zero => exact ⟨_, _, by simpa using h.le hin, rfl⟩
      | succ more => exact ih (h.next hin)
    · exact ⟨0xFFFD, _, by decide, rfl⟩

/-- **What reads as ASCII is written in ASCII.** -/
theorem eq_map_of_lossyFrom {cs : List Char} (hcs : ∀ c ∈ cs, 0 < c.toNat ∧ c.toNat < 128)
    (h : lossyFrom .start bs = cs) : bs = cs.map fun c => UInt8.ofNat c.toNat := by
  induction bs generalizing cs with
  | nil =>
    subst h
    rfl
  | cons b bs ih =>
    have hother : ∀ {n cs'}, 128 ≤ n → cs ≠ Char.ofNat n :: cs' := by
      rintro n cs' hn rfl
      obtain ⟨hc, hc'⟩ := hcs _ List.mem_cons_self
      exact ne_ofNat hc hc' hn rfl
    have hstep : (firstByte b).1 ++ lossyFrom (firstByte b).2 bs = cs := h
    have hwide := wide_firstByte b
    unfold firstByte at hstep hwide
    split at hstep
    next hb =>
      have hlow : b.toNat < 128 := UInt8.lt_iff_toNat_lt.1 hb
      obtain rfl : Char.ofNat b.toNat :: lossyFrom .start bs = cs := hstep
      rw [List.map_cons, ← ih (fun c hc => hcs c (List.mem_cons_of_mem _ hc)) rfl, toNat_ofNat,
        if_pos (.inl (by omega)), UInt8.ofNat_toNat]
    next hb =>
      rw [if_neg hb] at hwide
      split at hstep
      next hshape =>
        simp only [hshape] at hwide
        obtain ⟨n, cs', hn, hread⟩ := exists_of_lossyFrom_inside hwide bs
        exact absurd (hstep.symm.trans hread) (hother hn)
      · exact absurd hstep.symm (hother (by decide))

end Text.Utf8

namespace Raw

variable {r : Raw} {s t : String} {c : Char}

open Text.Utf8

/-! ### Texts and their bytes -/

/-- A text reads as itself. -/
@[simp]
theorem text_ofText (s : String) : (ofText s).text = s := decodeLossy_encode s

/-- **A text is told by its bytes.** -/
@[simp]
theorem ofText_inj : ofText s = ofText t ↔ s = t :=
  ⟨fun h => by rw [← text_ofText s, h, text_ofText], congrArg ofText⟩

/-- The bytes of a text are those of its characters. -/
theorem bytes_ofText (s : String) :
    (ofText s).bytes = s.toList.flatMap String.utf8EncodeChar := encode_eq_flatMap s

/-- The bytes of texts one after the other. -/
theorem ofText_append (s t : String) : ofText (s ++ t) = ofText s ++ ofText t := by
  rw [ofText, encode_eq_flatMap, String.toList_append, List.flatMap_append, ← encode_eq_flatMap,
    ← encode_eq_flatMap]
  rfl

/-- A slash is among the bytes of a text if and only if it is in the text. -/
theorem slash_mem_bytes_ofText : slash ∈ (ofText s).bytes ↔ '/' ∈ s.toList := by
  rw [bytes_ofText, List.mem_flatMap]
  constructor
  · rintro ⟨c, hc, hmem⟩
    exact eq_of_mem_utf8EncodeChar (a := '/') (by decide) hmem ▸ hc
  · exact fun h => ⟨'/', h, by decide⟩

/-- Bytes start with a slash if and only if the text does. -/
theorem isAbsolute_ofText : (ofText s).isAbsolute ↔ s.toList.head? = some '/' := by
  rw [isAbsolute, decide_eq_true_iff, bytes_ofText]
  cases s.toList with
  | nil => simp
  | cons c cs =>
    obtain ⟨b, bs, hencode⟩ := List.exists_cons_of_ne_nil
      (List.ne_nil_of_length_pos (String.length_utf8EncodeChar c ▸ Char.utf8Size_pos c))
    rw [List.flatMap_cons, hencode, List.cons_append, List.head?_cons, List.head?_cons,
      Option.some.injEq, Option.some.injEq]
    constructor
    · rintro rfl
      exact eq_of_mem_utf8EncodeChar (a := '/') (by decide) (hencode ▸ List.mem_cons_self)
    · rintro rfl
      exact (List.cons.inj hencode).1.symm

/-- Texts are joined as their bytes are. -/
theorem join_map_ofText (runs : List String) :
    join (runs.map ofText) = ofText (Text.join '/' runs) := by
  induction runs with
  | nil => rfl
  | cons run runs ih =>
    cases runs with
    | nil => simp [join, Text.joinRuns]
    | cons next runs =>
      have hbytes : (join ((run :: next :: runs).map ofText)).bytes =
          (ofText run).bytes ++ slash :: (join ((next :: runs).map ofText)).bytes := rfl
      have htext : (Text.join '/' (run :: next :: runs)).toList =
          run.toList ++ '/' :: (Text.join '/' (next :: runs)).toList := by
        simp [Text.join, Text.joinRuns]
      have heq : (join ((run :: next :: runs).map ofText)).bytes =
          (ofText (Text.join '/' (run :: next :: runs))).bytes := by
        rw [hbytes, ih, bytes_ofText, bytes_ofText, bytes_ofText, htext, List.flatMap_append,
          List.flatMap_cons]
        rfl
      exact congrArg Raw.mk heq

/-- **The runs of a text are those of its bytes.** -/
theorem split_ofText (s : String) : (ofText s).split = (Text.split '/' s).map ofText := by
  have hruns : ∀ run ∈ (Text.split '/' s).map ofText, slash ∉ run.bytes := by
    intro run hrun
    obtain ⟨t, ht, rfl⟩ := List.mem_map.1 hrun
    exact fun hmem => Text.not_mem_of_mem_split ht (slash_mem_bytes_ofText.1 hmem)
  have hne : (Text.split '/' s).map ofText ≠ [] := by simp [Text.split, Text.splitRuns_ne_nil]
  rw [← split_join hne hruns, join_map_ofText, Text.join_split]

/-- Bytes are those of a text if and only if reading and writing gives them back. -/
theorem exists_ofText_iff : (∃ s : String, s = r) ↔ ofText r.text = r := by
  refine ⟨?_, fun h => ⟨r.text, h⟩⟩
  rintro ⟨s, rfl⟩
  rw [text_ofText]

/-- Where every run is a text of some kind, the runs are those texts. -/
theorem exists_map_ofText {P : String → Prop} {runs : List Raw}
    (h : ∀ run ∈ runs, ∃ s, P s ∧ ofText s = run) :
    ∃ texts : List String, texts.map ofText = runs ∧ ∀ s ∈ texts, P s := by
  induction runs with
  | nil => exact ⟨[], rfl, by simp⟩
  | cons run runs ih =>
    obtain ⟨s, hs, rfl⟩ := h _ List.mem_cons_self
    obtain ⟨texts, rfl, htexts⟩ := ih fun run hrun => h run (List.mem_cons_of_mem _ hrun)
    exact ⟨s :: texts, rfl, List.forall_mem_cons.2 ⟨hs, htexts⟩⟩

/-! ### What bytes read as -/

/-- A character of ASCII is read from its byte only. -/
theorem not_mem_text (hc : 0 < c.toNat) (hc' : c.toNat < 128)
    (h : UInt8.ofNat c.toNat ∉ r.bytes) : c ∉ r.text.toList := by
  rw [text, decodeLossy, String.toList_ofList]
  exact fun hmem => h (mem_of_mem_lossyFrom wide_start hc hc' hmem)

/-- Only a text in ASCII itself reads as that. -/
theorem text_eq_iff (hs : s.toList.all fun c => 0 < c.toNat && c.toNat < 128) :
    r.text = s ↔ r = s := by
  refine ⟨fun h => ?_, fun h => h ▸ text_ofText s⟩
  have hbytes : ∀ {q : Raw}, q.text = s → q.bytes = s.toList.map fun c => UInt8.ofNat c.toNat := by
    intro q hq
    refine eq_map_of_lossyFrom (fun c hc => by simpa using List.all_eq_true.1 hs c hc) ?_
    rw [← hq, text, decodeLossy, String.toList_ofList]
  exact congrArg Raw.mk ((hbytes h).trans (hbytes (text_ofText s)).symm)

/-- Only nothing reads as nothing. -/
theorem text_eq_empty : r.text = "" ↔ r = "" := text_eq_iff rfl

/-- The readings of runs are joined as the runs are. -/
theorem text_join (runs : List Raw) : (join runs).text = Text.join '/' (runs.map text) := by
  induction runs with
  | nil => exact text_ofText ""
  | cons run runs ih =>
    cases runs with
    | nil => simp [join, Text.joinRuns, text]
    | cons next runs =>
      have hread : (join (run :: next :: runs)).text.toList =
          run.text.toList ++ '/' :: (join (next :: runs)).text.toList := by
        simp only [text, decodeLossy, String.toList_ofList]
        exact lossyFrom_append_ascii sound_start (by decide) _ _
      refine String.toList_injective ?_
      rw [hread, ih]
      simp [Text.join, Text.joinRuns]

/-- What a name without a slash reads as is a segment. -/
theorem segment_text (hne : r ≠ "") (h : slash ∉ r.bytes) : Text.Segment '/' r.text :=
  ⟨text_eq_empty.not.2 hne, not_mem_text (by decide) (by decide) h⟩

end Raw
end StatusCache
