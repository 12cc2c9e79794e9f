import Minilog.Lib.Bytes
import Mathlib.Data.List.Infix

/-! UTF-8 as the encoding of scalar values.

`utf8 cs` is the encoding of a text. Its units are the byte sequences of the grammar of RFC 3629 (`Unit8`):
each scalar value is written as one, and each is a scalar value (`unit8_utf8EncodeChar`,
`Unit8.exists_utf8EncodeChar`). The first byte of a unit tells its length, so at each position of a byte
string at most one unit starts (`Unit8.unique`). `Repaired mark s out` copies the units of `s` and puts `mark`
for each byte that starts none. -/
namespace Minilog.Lib
set_option autoImplicit false

def utf8 (cs : List Char) : Bytes := cs.flatMap String.utf8EncodeChar

/-- The encoding of some text. -/
def WellFormed (s : Bytes) : Prop := ∃ cs, utf8 cs = s

@[simp] theorem utf8_nil : utf8 [] = [] := rfl

theorem utf8_cons (c : Char) (cs : List Char) : utf8 (c :: cs) = String.utf8EncodeChar c ++ utf8 cs := rfl

theorem utf8_append (cs ds : List Char) : utf8 (cs ++ ds) = utf8 cs ++ utf8 ds := List.flatMap_append

theorem WellFormed.append {s t : Bytes} (hs : WellFormed s) (ht : WellFormed t) : WellFormed (s ++ t) := by
  obtain ⟨cs, rfl⟩ := hs
  obtain ⟨ds, rfl⟩ := ht
  exact ⟨cs ++ ds, utf8_append cs ds⟩

/-! ## The grammar -/

def Tail (b : UInt8) : Prop := 0x80 ≤ b.toNat ∧ b.toNat ≤ 0xBF

/-- The first two bytes of a sequence of three. -/
def Open3 (a b : UInt8) : Prop :=
  a.toNat = 0xE0 ∧ 0xA0 ≤ b.toNat ∧ b.toNat ≤ 0xBF ∨ 0xE1 ≤ a.toNat ∧ a.toNat ≤ 0xEC ∧ Tail b ∨
    a.toNat = 0xED ∧ 0x80 ≤ b.toNat ∧ b.toNat ≤ 0x9F ∨ 0xEE ≤ a.toNat ∧ a.toNat ≤ 0xEF ∧ Tail b

/-- The first two bytes of a sequence of four. -/
def Open4 (a b : UInt8) : Prop :=
  a.toNat = 0xF0 ∧ 0x90 ≤ b.toNat ∧ b.toNat ≤ 0xBF ∨ 0xF1 ≤ a.toNat ∧ a.toNat ≤ 0xF3 ∧ Tail b ∨
    a.toNat = 0xF4 ∧ 0x80 ≤ b.toNat ∧ b.toNat ≤ 0x8F

/-- `UTF8-char`. -/
inductive Unit8 : Bytes → Prop where
  | one (a : UInt8) (ha : a.toNat ≤ 0x7F) : Unit8 [a]
  | two (a b : UInt8) (ha : 0xC2 ≤ a.toNat ∧ a.toNat ≤ 0xDF) (hb : Tail b) : Unit8 [a, b]
  | three (a b c : UInt8) (hab : Open3 a b) (hc : Tail c) : Unit8 [a, b, c]
  | four (a b c d : UInt8) (hab : Open4 a b) (hc : Tail c) (hd : Tail d) : Unit8 [a, b, c, d]

theorem Unit8.of_one {a : UInt8} (h : Unit8 [a]) : a.toNat ≤ 0x7F := by
  cases h with
  | one _ ha => exact ha

theorem Unit8.of_two {a b : UInt8} (h : Unit8 [a, b]) : (0xC2 ≤ a.toNat ∧ a.toNat ≤ 0xDF) ∧ Tail b := by
  cases h with
  | two _ _ ha hb => exact ⟨ha, hb⟩

theorem Unit8.of_three {a b c : UInt8} (h : Unit8 [a, b, c]) : Open3 a b ∧ Tail c := by
  cases h with
  | three _ _ _ hab hc => exact ⟨hab, hc⟩

theorem Unit8.of_four {a b c d : UInt8} (h : Unit8 [a, b, c, d]) : Open4 a b ∧ Tail c ∧ Tail d := by
  cases h with
  | four _ _ _ _ hab hc hd => exact ⟨hab, hc, hd⟩

theorem toNat_ofNat8 (n : ℕ) : (UInt8.ofNat n).toNat = n % 256 := UInt8.toNat_ofNat'

theorem ofNat8_eq (n : ℕ) (a : UInt8) (h : n = a.toNat) : UInt8.ofNat n = a := by
  rw [h]
  exact UInt8.ofNat_toNat

/-- A scalar value is written as a unit. -/
theorem unit8_utf8EncodeChar (c : Char) : Unit8 (String.utf8EncodeChar c) := by
  obtain ⟨v, hv⟩ : ∃ v, v = c.val.toNat := ⟨_, rfl⟩
  have hvalid : v < 0xD800 ∨ 0xDFFF < v ∧ v < 0x110000 := hv ▸ c.valid
  unfold String.utf8EncodeChar
  dsimp only
  rw [← hv]
  by_cases h1 : v ≤ 0x7F
  · rw [if_pos h1]
    exact .one _ (by rw [toNat_ofNat8]; omega)
  rw [if_neg h1]
  by_cases h2 : v ≤ 0x7FF
  · rw [if_pos h2]
    refine .two _ _ ?_ ?_
    · rw [toNat_ofNat8]
      omega
    · unfold Tail
      rw [toNat_ofNat8]
      omega
  rw [if_neg h2]
  by_cases h3 : v ≤ 0xFFFF
  · rw [if_pos h3]
    refine .three _ _ _ ?_ ?_
    · unfold Open3 Tail
      rw [toNat_ofNat8, toNat_ofNat8]
      omega
    · unfold Tail
      rw [toNat_ofNat8]
      omega
  · rw [if_neg h3]
    refine .four _ _ _ _ ?_ ?_ ?_
    · unfold Open4 Tail
      rw [toNat_ofNat8, toNat_ofNat8]
      omega
    · unfold Tail
      rw [toNat_ofNat8]
      omega
    · unfold Tail
      rw [toNat_ofNat8]
      omega

theorem exists_char (v : ℕ) (h : v < 0xD800 ∨ 0xDFFF < v ∧ v < 0x110000) : ∃ c : Char, c.val.toNat = v :=
  ⟨Char.ofNatAux v h, rfl⟩

/-- A unit is a scalar value written out. -/
theorem Unit8.exists_utf8EncodeChar {s : Bytes} (h : Unit8 s) : ∃ c : Char, String.utf8EncodeChar c = s := by
  cases h with
  | one a ha =>
    obtain ⟨c, hc⟩ := exists_char a.toNat (by omega)
    refine ⟨c, ?_⟩
    unfold String.utf8EncodeChar
    dsimp only
    rw [hc, if_pos ha, ofNat8_eq _ a rfl]
  | two a b ha hb =>
    unfold Tail at hb
    obtain ⟨c, hc⟩ := exists_char ((a.toNat - 0xC0) * 64 + (b.toNat - 0x80)) (by omega)
    refine ⟨c, ?_⟩
    unfold String.utf8EncodeChar
    dsimp only
    rw [hc, if_neg (by omega), if_pos (by omega), ofNat8_eq _ a (by omega), ofNat8_eq _ b (by omega)]
  | three a b c hab hc =>
    unfold Open3 at hab
    unfold Tail at hab hc
    obtain ⟨r, hr⟩ := exists_char ((a.toNat - 0xE0) * 4096 + (b.toNat - 0x80) * 64 + (c.toNat - 0x80))
      (by omega)
    refine ⟨r, ?_⟩
    unfold String.utf8EncodeChar
    dsimp only
    rw [hr, if_neg (by omega), if_neg (by omega), if_pos (by omega), ofNat8_eq _ a (by omega),
      ofNat8_eq _ b (by omega), ofNat8_eq _ c (by omega)]
  | four a b c d hab hc hd =>
    unfold Open4 at hab
    unfold Tail at hab hc hd
    obtain ⟨r, hr⟩ := exists_char ((a.toNat - 0xF0) * 262144 + (b.toNat - 0x80) * 4096 +
      (c.toNat - 0x80) * 64 + (d.toNat - 0x80)) (by omega)
    refine ⟨r, ?_⟩
    unfold String.utf8EncodeChar
    dsimp only
    rw [hr, if_neg (by omega), if_neg (by omega), if_neg (by omega), ofNat8_eq _ a (by omega),
      ofNat8_eq _ b (by omega), ofNat8_eq _ c (by omega), ofNat8_eq _ d (by omega)]

/-! ## One unit at a position -/

/-- The length of the unit a byte starts. -/
def unitSize (a : UInt8) : ℕ :=
  if a.toNat ≤ 0x7F then 1 else if a.toNat ≤ 0xDF then 2 else if a.toNat ≤ 0xEF then 3 else 4

theorem Unit8.size {s : Bytes} (h : Unit8 s) : ∃ a rest, s = a :: rest ∧ s.length = unitSize a := by
  unfold unitSize
  cases h with
  | one a ha => exact ⟨a, [], rfl, by rw [if_pos ha]; rfl⟩
  | two a b ha hb => exact ⟨a, [b], rfl, by rw [if_neg (by omega), if_pos (by omega)]; rfl⟩
  | three a b c hab hc =>
    unfold Open3 at hab
    exact ⟨a, [b, c], rfl, by rw [if_neg (by omega), if_neg (by omega), if_pos (by omega)]; rfl⟩
  | four a b c d hab hc hd =>
    unfold Open4 at hab
    exact ⟨a, [b, c, d], rfl, by rw [if_neg (by omega), if_neg (by omega), if_neg (by omega)]; rfl⟩

theorem Unit8.unique {p q s : Bytes} (hp : Unit8 p) (hq : Unit8 q) (hps : p <+: s) (hqs : q <+: s) : p = q := by
  obtain ⟨a, x, hpa, hplen⟩ := hp.size
  obtain ⟨b, y, hqb, hqlen⟩ := hq.size
  have hab : a = b := by
    obtain ⟨u, hu⟩ := hps
    obtain ⟨v, hv⟩ := hqs
    rw [← hv, hpa, hqb] at hu
    exact (List.cons.inj hu).1
  have hlen : p.length = q.length := by rw [hplen, hqlen, hab]
  exact (List.prefix_of_prefix_length_le hps hqs hlen.le).eq_of_length hlen

theorem Unit8.ne_nil {s : Bytes} (h : Unit8 s) : s ≠ [] := by
  obtain ⟨a, rest, rfl, -⟩ := h.size
  exact List.cons_ne_nil _ _

/-! ## Repairing -/

/-- At each position the unit that starts there is copied, and `mark` stands for a byte that starts none. -/
inductive Repaired (mark : Bytes) : Bytes → Bytes → Prop where
  | done : Repaired mark [] []
  | copied (c : Char) (s out : Bytes) (h : Repaired mark s out) :
      Repaired mark (String.utf8EncodeChar c ++ s) (String.utf8EncodeChar c ++ out)
  | marked (b : UInt8) (s out : Bytes) (hb : ∀ c : Char, ¬ String.utf8EncodeChar c <+: b :: s)
    (h : Repaired mark s out) :
      Repaired mark (b :: s) (mark ++ out)

section Repair

variable {mark : Bytes}

theorem Repaired.wellFormed {s out : Bytes} (hmark : WellFormed mark) (h : Repaired mark s out) :
    WellFormed out := by
  induction h with
  | done => exact ⟨[], rfl⟩
  | copied c s out _ ih => exact WellFormed.append ⟨[c], List.append_nil _⟩ ih
  | marked b s out _ _ ih => exact hmark.append ih

/-- A well-formed text is copied. -/
theorem repaired_self {s : Bytes} (h : WellFormed s) : Repaired mark s s := by
  obtain ⟨cs, rfl⟩ := h
  induction cs with
  | nil => exact .done
  | cons c cs ih => exact .copied c _ _ ih

/-- There is one way to repair a text. -/
theorem Repaired.unique {s out : Bytes} (h : Repaired mark s out) (out' : Bytes)
    (h' : Repaired mark s out') : out = out' := by
  induction h generalizing out' with
  | done =>
    generalize hs : ([] : Bytes) = s at h'
    cases h' with
    | done => rfl
    | copied c s out _ => exact absurd (List.append_eq_nil_iff.mp hs.symm).1 (unit8_utf8EncodeChar c).ne_nil
    | marked b s out _ _ => cases hs
  | copied c s out _ ih =>
    generalize hs : String.utf8EncodeChar c ++ s = t at h'
    cases h' with
    | done => exact absurd (List.append_eq_nil_iff.mp hs).1 (unit8_utf8EncodeChar c).ne_nil
    | copied d t out' h' =>
      have hcd := (unit8_utf8EncodeChar c).unique (unit8_utf8EncodeChar d) ⟨s, hs⟩ ⟨t, rfl⟩
      rw [hcd] at hs ⊢
      rw [List.append_cancel_left hs] at ih
      rw [ih out' h']
    | marked b t out' hb _ => exact absurd ⟨s, hs⟩ (hb c)
  | marked b s out hb _ ih =>
    generalize hs : b :: s = t at h'
    cases h' with
    | done => cases hs
    | copied d t out' _ => exact absurd ⟨t, hs.symm⟩ (hb d)
    | marked b' t out' _ h' =>
      obtain ⟨-, rfl⟩ := List.cons.inj hs
      rw [ih out' h']

end Repair

end Minilog.Lib
