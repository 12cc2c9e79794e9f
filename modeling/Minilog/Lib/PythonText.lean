import Minilog.Lib.Runes
import Minilog.Lib.Utf8

/-! Python's text files: `open(path, encoding="utf-8", errors="replace")`, read line by line.

The bytes are decoded, a part that starts a character and does not end it being replaced as a whole; every
line end is read as `\n`. A file of well-formed lines is read as those lines (`readLines_terminated`). -/
namespace Minilog.Lib.Python
set_option autoImplicit false

/-! ## Decoding -/

def replacement : Char := Char.ofNat 0xFFFD

/-- The character in front, and how many of the bytes behind the first one it takes. -/
def decodeOne (c : UInt8) (rest : Bytes) : Char × ℕ :=
  if c < 0x80 then (Char.ofNat c.toNat, 0)
  else
    match rest with
    | [] => (replacement, 0)
    | d :: rest =>
      if 0xC2 ≤ c && c ≤ 0xDF && isTail d then (Char.ofNat (c.toNat % 32 * 64 + tailBits d), 1)
      else if accept3 c d then
        match rest with
        | [] => (replacement, 1)
        | e :: _ =>
          if isTail e then (Char.ofNat (c.toNat % 16 * 4096 + tailBits d * 64 + tailBits e), 2)
            else (replacement, 1)
      else if accept4 c d then
        match rest with
        | [] => (replacement, 1)
        | e :: rest =>
          if isTail e = false then (replacement, 1)
          else
            match rest with
            | [] => (replacement, 2)
            | f :: _ =>
              if isTail f then (Char.ofNat (c.toNat % 8 * 262144 + tailBits d * 4096 + tailBits e * 64 +
                tailBits f), 3)
              else (replacement, 2)
      else (replacement, 0)

/-- `skip` bytes of the last character are still in front. -/
def decodeFrom : ℕ → Bytes → List Char
  | _, [] => []
  | skip + 1, _ :: rest => decodeFrom skip rest
  | 0, c :: rest => (decodeOne c rest).1 :: decodeFrom (decodeOne c rest).2 rest

def decode (s : Bytes) : List Char := decodeFrom 0 s

/-! ## Lines -/

/-- A CR is read as an LF, and an LF behind it is part of the same line end. -/
def newlinesFrom : Bool → List Char → List Char
  | _, [] => []
  | afterCr, c :: cs =>
    if c = '\n' ∧ afterCr = true then newlinesFrom false cs
    else if c = '\r' then '\n' :: newlinesFrom true cs
    else c :: newlinesFrom false cs

def universalNewlines (cs : List Char) : List Char := newlinesFrom false cs

/-- What iterating over the file gives, line ends included. -/
def textLines : List Char → List (List Char)
  | [] => []
  | c :: cs =>
    if c = '\n' then ['\n'] :: textLines cs
    else
      match textLines cs with
      | [] => [[c]]
      | line :: lines => (c :: line) :: lines

def readLines (s : Bytes) : List (List Char) := textLines (universalNewlines (decode s))

/-! ## Well-formed files -/

theorem isTail_iff (b : UInt8) : isTail b = true ↔ Tail b := by
  rw [isTail, Bool.and_eq_true, decide_eq_true_iff, decide_eq_true_iff, UInt8.le_iff_toNat_le,
    UInt8.le_iff_toNat_le]
  rfl

theorem decodeFrom_skip (q rest : Bytes) : decodeFrom q.length (q ++ rest) = decode rest := by
  induction q with
  | nil => rfl
  | cons b q ih => exact ih

theorem decodeOne_one (a : UInt8) (s : Bytes) (ha : a.toNat ≤ 0x7F) : decodeOne a s = (Char.ofNat a.toNat, 0) :=
  if_pos (UInt8.lt_iff_toNat_lt.mpr (Nat.lt_succ_of_le ha))

theorem decodeOne_two (a b : UInt8) (s : Bytes) (ha : 0xC2 ≤ a.toNat ∧ a.toNat ≤ 0xDF) (hb : Tail b) :
    decodeOne a (b :: s) = (Char.ofNat (a.toNat % 32 * 64 + tailBits b), 1) := by
  have hlead : (0xC2 ≤ a && a ≤ 0xDF && isTail b) = true := by
    rw [Bool.and_eq_true, Bool.and_eq_true, decide_eq_true_iff, decide_eq_true_iff, UInt8.le_iff_toNat_le,
      UInt8.le_iff_toNat_le]
    exact ⟨ha, (isTail_iff b).mpr hb⟩
  have hhigh : ¬ a < 0x80 := fun h => absurd (UInt8.lt_iff_toNat_lt.mp h)
    (Nat.not_lt.mpr (Nat.le_trans (by decide) ha.1))
  unfold decodeOne
  rw [if_neg hhigh]
  exact if_pos hlead

theorem accept3_iff (a b : UInt8) : accept3 a b = true ↔ Open3 a b := by
  unfold accept3 isTail Open3 Tail
  split_ifs with he0 hed
  · rw [he0]
    simp only [Bool.and_eq_true, decide_eq_true_iff, UInt8.le_iff_toNat_le, UInt8.reduceToNat, true_and]
    omega
  · rw [hed]
    simp only [Bool.and_eq_true, decide_eq_true_iff, UInt8.le_iff_toNat_le, UInt8.reduceToNat, true_and]
    omega
  · have hne0 : a.toNat ≠ 0xE0 := fun h => he0 (UInt8.toNat_inj.mp h)
    have hned : a.toNat ≠ 0xED := fun h => hed (UInt8.toNat_inj.mp h)
    simp only [Bool.and_eq_true, decide_eq_true_iff, UInt8.le_iff_toNat_le, UInt8.reduceToNat]
    omega

theorem accept4_iff (a b : UInt8) : accept4 a b = true ↔ Open4 a b := by
  unfold accept4 isTail Open4 Tail
  split_ifs with hf0 hf4
  · rw [hf0]
    simp only [Bool.and_eq_true, decide_eq_true_iff, UInt8.le_iff_toNat_le, UInt8.reduceToNat, true_and]
    omega
  · rw [hf4]
    simp only [Bool.and_eq_true, decide_eq_true_iff, UInt8.le_iff_toNat_le, UInt8.reduceToNat, true_and]
    omega
  · have hnf0 : a.toNat ≠ 0xF0 := fun h => hf0 (UInt8.toNat_inj.mp h)
    have hnf4 : a.toNat ≠ 0xF4 := fun h => hf4 (UInt8.toNat_inj.mp h)
    simp only [Bool.and_eq_true, decide_eq_true_iff, UInt8.le_iff_toNat_le, UInt8.reduceToNat]
    omega

/-- A byte that leads a longer sequence leads no shorter one. -/
theorem longer_lead (a b : UInt8) (h : 0xE0 ≤ a.toNat) :
    ¬ a < 0x80 ∧ (0xC2 ≤ a && a ≤ 0xDF && isTail b) = false := by
  have hnot : ¬ a ≤ 0xDF := fun hle => absurd (UInt8.le_iff_toNat_le.mp hle)
    (Nat.not_le.mpr (Nat.lt_of_lt_of_le (by decide) h))
  refine ⟨fun hlt => ?_, by rw [decide_eq_false hnot, Bool.and_false, Bool.false_and]⟩
  exact absurd (UInt8.lt_iff_toNat_lt.mp hlt) (Nat.not_lt.mpr (Nat.le_trans (by decide) h))

theorem decodeOne_three (a b c : UInt8) (s : Bytes) (hab : Open3 a b) (hc : Tail c) :
    decodeOne a (b :: c :: s) = (Char.ofNat (a.toNat % 16 * 4096 + tailBits b * 64 + tailBits c), 2) := by
  obtain ⟨hhigh, hlead⟩ := longer_lead a b (by unfold Open3 at hab; omega)
  unfold decodeOne
  rw [if_neg hhigh]
  dsimp only
  rw [hlead, if_neg Bool.false_ne_true, if_pos ((accept3_iff a b).mpr hab), if_pos ((isTail_iff c).mpr hc)]

theorem decodeOne_four (a b c d : UInt8) (s : Bytes) (hab : Open4 a b) (hc : Tail c) (hd : Tail d) :
    decodeOne a (b :: c :: d :: s) = (Char.ofNat (a.toNat % 8 * 262144 + tailBits b * 4096 +
      tailBits c * 64 + tailBits d), 3) := by
  obtain ⟨hhigh, hlead⟩ := longer_lead a b (by unfold Open4 at hab; omega)
  have hthree : accept3 a b = false := by
    rw [← Bool.not_eq_true, accept3_iff]
    unfold Open3
    unfold Open4 at hab
    omega
  unfold decodeOne
  rw [if_neg hhigh]
  dsimp only
  rw [hlead, if_neg Bool.false_ne_true, hthree, if_neg Bool.false_ne_true, if_pos ((accept4_iff a b).mpr hab),
    (isTail_iff c).mpr hc, if_neg (fun h => by cases h), if_pos ((isTail_iff d).mpr hd)]

theorem tailBits_tail (n : ℕ) : tailBits (UInt8.ofNat (n % 0x40 + 0x80)) = n % 64 := by
  rw [tailBits, toNat_ofNat8]
  omega

/-- A character comes back from what it is encoded as. -/
theorem decode_char (c : Char) (s : Bytes) : decode (String.utf8EncodeChar c ++ s) = c :: decode s := by
  have hback : ∀ (a : UInt8) (q : Bytes), String.utf8EncodeChar c = a :: q →
      decodeOne a (q ++ s) = (c, q.length) →
      decode (String.utf8EncodeChar c ++ s) = c :: decode s := by
    intro a q hq hone
    rw [hq, List.cons_append, decode, decodeFrom, hone]
    dsimp only
    rw [decodeFrom_skip]
  obtain ⟨v, hv⟩ : ∃ v, v = c.val.toNat := ⟨_, rfl⟩
  have hbound : v < 0x110000 := by
    rcases c.valid with h | h
    · exact hv ▸ Nat.lt_trans h (by decide)
    · exact hv ▸ h.2
  have hchar : ∀ n, n = v → Char.ofNat n = c := by
    rintro n rfl
    rw [hv]
    exact Char.ofNat_toNat c
  -- that the bytes are a unit is known, what is left is to put the scalar value together again
  have hunit := unit8_utf8EncodeChar c
  unfold String.utf8EncodeChar at hback hunit ⊢
  dsimp only at hback hunit ⊢
  rw [← hv] at hback hunit ⊢
  by_cases h1 : v ≤ 0x7F
  · rw [if_pos h1] at hback hunit ⊢
    refine hback _ _ rfl ?_
    rw [decodeOne_one _ _ hunit.of_one, hchar _ (by rw [toNat_ofNat8]; omega)]
    rfl
  rw [if_neg h1] at hback hunit ⊢
  by_cases h2 : v ≤ 0x7FF
  · rw [if_pos h2] at hback hunit ⊢
    refine hback _ _ rfl ?_
    have hlead : (UInt8.ofNat (v / 64 % 0x20 + 0xc0)).toNat % 32 = v / 64 % 32 := by
      rw [toNat_ofNat8]
      omega
    obtain ⟨ha, hb⟩ := hunit.of_two
    rw [List.singleton_append, decodeOne_two _ _ _ ha hb, hlead, tailBits_tail, hchar _ (by omega)]
    rfl
  rw [if_neg h2] at hback hunit ⊢
  by_cases h3 : v ≤ 0xFFFF
  · rw [if_pos h3] at hback hunit ⊢
    refine hback _ _ rfl ?_
    have hlead : (UInt8.ofNat (v / 4096 % 0x10 + 0xe0)).toNat % 16 = v / 4096 % 16 := by
      rw [toNat_ofNat8]
      omega
    obtain ⟨hab, hc⟩ := hunit.of_three
    rw [List.cons_append, List.singleton_append, decodeOne_three _ _ _ _ hab hc, hlead, tailBits_tail,
      tailBits_tail, hchar _ (by omega)]
    rfl
  · rw [if_neg h3] at hback hunit ⊢
    refine hback _ _ rfl ?_
    have hlead : (UInt8.ofNat (v / 262144 % 0x08 + 0xf0)).toNat % 8 = v / 262144 % 8 := by
      rw [toNat_ofNat8]
      omega
    obtain ⟨hab, hc, hd⟩ := hunit.of_four
    rw [List.cons_append, List.cons_append, List.singleton_append, decodeOne_four _ _ _ _ _ hab hc hd,
      hlead, tailBits_tail, tailBits_tail, tailBits_tail, hchar _ (by omega)]
    rfl

theorem decode_utf8 (cs : List Char) : decode (utf8 cs) = cs := by
  induction cs with
  | nil => rfl
  | cons c cs ih => rw [utf8_cons, decode_char, ih]

theorem utf8_decode (s : Bytes) (h : WellFormed s) : utf8 (decode s) = s := by
  obtain ⟨cs, rfl⟩ := h
  rw [decode_utf8]

theorem universalNewlines_self (cs : List Char) (h : '\r' ∉ cs) : universalNewlines cs = cs := by
  induction cs with
  | nil => rfl
  | cons c cs ih =>
    rw [List.mem_cons, not_or] at h
    unfold universalNewlines at ih ⊢
    rw [newlinesFrom, if_neg (fun hc => Bool.false_ne_true hc.2), if_neg (Ne.symm h.1), ih h.2]

theorem textLines_line (line rest : List Char) (h : '\n' ∉ line) :
    textLines (line ++ '\n' :: rest) = (line ++ ['\n']) :: textLines rest := by
  induction line with
  | nil => rw [List.nil_append, textLines, if_pos rfl, List.nil_append]
  | cons c line ih =>
    rw [List.mem_cons, not_or] at h
    rw [List.cons_append, textLines, if_neg (Ne.symm h.1), ih h.2]
    rfl

/-- The lines of a text, as they are in the file. -/
def terminated (lines : List (List Char)) : Bytes := lines.flatMap fun line => utf8 line ++ [lf]

theorem readLines_terminated (lines : List (List Char)) (h : ∀ line ∈ lines, '\n' ∉ line ∧ '\r' ∉ line) :
    readLines (terminated lines) = lines.map (· ++ ['\n']) := by
  have htext : terminated lines = utf8 (lines.flatMap (· ++ ['\n'])) := by
    unfold terminated
    induction lines with
    | nil => rfl
    | cons line lines ih =>
      rw [List.flatMap_cons, List.flatMap_cons, utf8_append, utf8_append,
        ih fun l hl => h l (List.mem_cons_of_mem _ hl)]
      rfl
  have hcr : '\r' ∉ lines.flatMap (· ++ ['\n']) := by
    intro hmem
    obtain ⟨line, hline, hin⟩ := List.mem_flatMap.mp hmem
    rcases List.mem_append.mp hin with hin | hin
    · exact (h line hline).2 hin
    · exact absurd hin (by decide)
  rw [readLines, htext, decode_utf8, universalNewlines_self _ hcr]
  clear htext hcr
  induction lines with
  | nil => rfl
  | cons line lines ih =>
    rw [List.flatMap_cons, List.append_assoc, List.singleton_append,
      textLines_line _ _ (h line List.mem_cons_self).1, ih fun l hl => h l (List.mem_cons_of_mem _ hl),
      List.map_cons]

end Minilog.Lib.Python
