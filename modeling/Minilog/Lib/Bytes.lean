import Mathlib.Data.List.Basic
import Mathlib.Data.List.DropRight
import Mathlib.Data.Nat.Digits.Lemmas

/-! Byte strings, the lines they are cut into at LF, and decimal numerals.

A line is what stands between two LF bytes; an unterminated last line counts when it is not empty
(`scanLines`), which is how a line scanner reads a file. `lines_cases` is the case analysis every
proof about a file's lines starts from: nothing left, one unterminated line, or a terminated line
and the rest. -/
namespace Minilog.Lib
set_option autoImplicit false

abbrev Bytes := List UInt8

/-- Membership tests on lists of byte strings all rest on this proof. -/
instance lawfulBytes : LawfulBEq Bytes := List.instLawfulBEq

/-- The bytes of an ASCII literal. -/
def ascii (s : String) : Bytes := s.toList.map fun c => UInt8.ofNat c.toNat

abbrev lf : UInt8 := 0x0A
abbrev cr : UInt8 := 0x0D
abbrev tab : UInt8 := 0x09
abbrev space : UInt8 := 0x20
abbrev backslash : UInt8 := 0x5C

/-- A decidable statement about a byte holds of every byte when it holds of all 256. -/
theorem forall_byte (p : UInt8 → Prop) (h : ∀ n : Fin 256, p (UInt8.ofFin n)) (c : UInt8) : p c := by
  have hc := h c.toFin
  rwa [UInt8.ofFin_toFin] at hc

/-- The same for the bytes of a text, where they are tested one after the other. -/
theorem forall_mem_byte (s : Bytes) (p : UInt8 → Prop) [DecidablePred p]
    (h : s.all (fun c => decide (p c)) = true) : ∀ c ∈ s, p c := by
  intro c hc
  exact of_decide_eq_true (List.all_eq_true.mp h c hc)

/-! ## Numerals -/

/-- The decimal numeral of a number, without leading zeros. -/
def numeral (n : ℕ) : Bytes := (Nat.toDigits 10 n).map fun c => UInt8.ofNat c.toNat

theorem digit_bounds (n : ℕ) (c : Char) (h : c ∈ Nat.toDigits 10 n) : 48 ≤ c.toNat ∧ c.toNat ≤ 57 := by
  have hd := Nat.isDigit_of_mem_toDigits (by decide) (by decide) h
  simp only [Char.isDigit, Bool.and_eq_true, decide_eq_true_eq] at hd
  exact ⟨UInt32.le_iff_toNat_le.mp hd.1, UInt32.le_iff_toNat_le.mp hd.2⟩

theorem mem_numeral (n : ℕ) (b : UInt8) (h : b ∈ numeral n) : 48 ≤ b.toNat ∧ b.toNat ≤ 57 := by
  obtain ⟨c, hc, hb⟩ := List.mem_map.mp h
  have hbounds := digit_bounds n c hc
  have hbn : b.toNat = c.toNat := by
    rw [← hb, UInt8.toNat_ofNat']
    omega
  omega

theorem numeral_ne_nil (n : ℕ) : numeral n ≠ [] := fun h => Nat.toDigits_ne_nil (List.map_eq_nil_iff.mp h)

/-- Different numbers have different numerals. -/
theorem numeral_injective (n m : ℕ) (h : numeral n = numeral m) : n = m := by
  have hback : ∀ k, (numeral k).map (fun b => Char.ofNat b.toNat) = Nat.toDigits 10 k := by
    intro k
    rw [numeral, List.map_map]
    have hid : ∀ c ∈ Nat.toDigits 10 k,
        ((fun b : UInt8 => Char.ofNat b.toNat) ∘ fun c => UInt8.ofNat c.toNat) c = c := by
      intro c hc
      have hbounds := digit_bounds k c hc
      have hcn : (UInt8.ofNat c.toNat).toNat = c.toNat := by
        rw [UInt8.toNat_ofNat']
        omega
      simp only [Function.comp_apply, hcn, Char.ofNat_toNat]
    rw [List.map_congr_left hid, List.map_id']
  have hdigits : Nat.toDigits 10 n = Nat.toDigits 10 m := by rw [← hback n, h, hback m]
  rw [← Nat.ofDigitChars_ten_toDigits (n := n), hdigits, Nat.ofDigitChars_ten_toDigits]

/-! ## Lines -/

/-- The lines of a byte string: cut at every LF, the unterminated rest kept when not empty. -/
def scanLines : Bytes → List Bytes
  | [] => []
  | c :: s =>
    if c = lf then [] :: scanLines s
    else
      match scanLines s with
      | [] => [[c]]
      | l :: ls => (c :: l) :: ls

theorem scanLines_terminated (l s : Bytes) (hl : lf ∉ l) : scanLines (l ++ lf :: s) = l :: scanLines s := by
  induction l with
  | nil => simp [scanLines]
  | cons c l ih =>
    simp only [List.mem_cons, not_or] at hl
    rw [List.cons_append, scanLines, if_neg (fun h => hl.1 h.symm), ih hl.2]

theorem scanLines_unterminated (l : Bytes) (hne : l ≠ []) (hl : lf ∉ l) : scanLines l = [l] := by
  induction l with
  | nil => exact absurd rfl hne
  | cons c l ih =>
    simp only [List.mem_cons, not_or] at hl
    rw [scanLines, if_neg (fun h => hl.1 h.symm)]
    cases l with
    | nil => rfl
    | cons d l => rw [ih (List.cons_ne_nil d l) hl.2]

theorem mem_of_mem_scanLines (s : Bytes) : ∀ l ∈ scanLines s, ∀ c ∈ l, c ∈ s := by
  induction s with
  | nil =>
    intro l hl
    cases hl
  | cons d s ih =>
    intro l hl c hc
    rw [scanLines] at hl
    split at hl
    · rcases List.mem_cons.mp hl with rfl | hl
      · cases hc
      · exact List.mem_cons_of_mem d (ih l hl c hc)
    · cases hs : scanLines s with
      | nil =>
        rw [hs] at hl
        rw [List.mem_singleton.mp hl] at hc
        exact List.mem_cons.mpr (.inl (List.mem_singleton.mp hc))
      | cons first more =>
        rw [hs] at hl ih
        rcases List.mem_cons.mp hl with rfl | hl
        · rcases List.mem_cons.mp hc with rfl | hc
          · exact List.mem_cons_self
          · exact List.mem_cons_of_mem d (ih first List.mem_cons_self c hc)
        · exact List.mem_cons_of_mem d (ih l (List.mem_cons_of_mem first hl) c hc)

theorem lf_notMem_of_mem_scanLines (s : Bytes) : ∀ l ∈ scanLines s, lf ∉ l := by
  induction s with
  | nil => exact fun l hl => absurd hl List.not_mem_nil
  | cons d s ih =>
    intro l hl
    rw [scanLines] at hl
    split at hl
    · rcases List.mem_cons.mp hl with rfl | hl
      · exact List.not_mem_nil
      · exact ih l hl
    · next hd =>
      cases hs : scanLines s with
      | nil =>
        rw [hs] at hl
        rw [List.mem_singleton.mp hl, List.mem_singleton]
        exact Ne.symm hd
      | cons first more =>
        rw [hs] at hl ih
        rcases List.mem_cons.mp hl with rfl | hl
        · rw [List.mem_cons, not_or]
          exact ⟨Ne.symm hd, ih first List.mem_cons_self⟩
        · exact ih l (List.mem_cons_of_mem first hl)

/-- Every byte string is empty, one unterminated line, or a terminated line and a rest. -/
theorem lines_cases (s : Bytes) :
    s = [] ∨ (s ≠ [] ∧ lf ∉ s) ∨ ∃ l t, lf ∉ l ∧ s = l ++ lf :: t := by
  by_cases h : lf ∈ s
  · obtain ⟨l, t, hs, hl⟩ := List.eq_append_cons_of_mem h
    exact .inr (.inr ⟨l, t, hl, hs⟩)
  · by_cases hs : s = []
    · exact .inl hs
    · exact .inr (.inl ⟨hs, h⟩)

/-- Lines written one after another, each followed by LF, are read back one by one. -/
theorem scanLines_flatMap (ls : List Bytes) (h : ∀ l ∈ ls, lf ∉ l) :
    scanLines (ls.flatMap fun l => l ++ [lf]) = ls := by
  induction ls with
  | nil => rfl
  | cons l ls ih =>
    rw [List.flatMap_cons, List.append_assoc, List.singleton_append,
      scanLines_terminated l _ (h l (by simp)), ih fun m hm => h m (by simp [hm])]

end Minilog.Lib
