import Minilog.Lib.Bytes

/-! Byte strings read as UTF-8, rune by rune.

`decodeRune` reads the rune in front of a byte string; a byte that starts no valid sequence is one error
rune. `mapRunes f` replaces every rune by its image under `f`. An ASCII byte is never part of a longer
sequence, so a map can be taken apart there (`mapRunes_ascii`), and what it writes comes from where it reads
(`mapRunes_split`). -/
namespace Minilog.Lib
set_option autoImplicit false

def runeError : ℕ := 0xFFFD

def isTail (c : UInt8) : Bool := 0x80 ≤ c && c ≤ 0xBF

/-- The first two bytes of a sequence of three. -/
def accept3 (c0 c1 : UInt8) : Bool :=
  if c0 = 0xE0 then 0xA0 ≤ c1 && c1 ≤ 0xBF
  else if c0 = 0xED then 0x80 ≤ c1 && c1 ≤ 0x9F
  else 0xE1 ≤ c0 && c0 ≤ 0xEF && isTail c1

/-- The first two bytes of a sequence of four. -/
def accept4 (c0 c1 : UInt8) : Bool :=
  if c0 = 0xF0 then 0x90 ≤ c1 && c1 ≤ 0xBF
  else if c0 = 0xF4 then 0x80 ≤ c1 && c1 ≤ 0x8F
  else 0xF1 ≤ c0 && c0 ≤ 0xF3 && isTail c1

def tailBits (c : UInt8) : ℕ := c.toNat % 64

/-- The rune in front and the number of its bytes. -/
def decodeRune : Bytes → ℕ × ℕ
  | [] => (runeError, 0)
  | [c0] => if c0 < 0x80 then (c0.toNat, 1) else (runeError, 1)
  | [c0, c1] =>
    if c0 < 0x80 then (c0.toNat, 1)
    else if 0xC2 ≤ c0 && c0 ≤ 0xDF && isTail c1 then (c0.toNat % 32 * 64 + tailBits c1, 2)
    else (runeError, 1)
  | [c0, c1, c2] =>
    if c0 < 0x80 then (c0.toNat, 1)
    else if 0xC2 ≤ c0 && c0 ≤ 0xDF && isTail c1 then (c0.toNat % 32 * 64 + tailBits c1, 2)
    else if accept3 c0 c1 && isTail c2 then (c0.toNat % 16 * 4096 + tailBits c1 * 64 + tailBits c2, 3)
    else (runeError, 1)
  | c0 :: c1 :: c2 :: c3 :: _ =>
    if c0 < 0x80 then (c0.toNat, 1)
    else if 0xC2 ≤ c0 && c0 ≤ 0xDF && isTail c1 then (c0.toNat % 32 * 64 + tailBits c1, 2)
    else if accept3 c0 c1 && isTail c2 then (c0.toNat % 16 * 4096 + tailBits c1 * 64 + tailBits c2, 3)
    else if accept4 c0 c1 && isTail c2 && isTail c3 then
      (c0.toNat % 8 * 262144 + tailBits c1 * 4096 + tailBits c2 * 64 + tailBits c3, 4)
    else (runeError, 1)

def byteOf (n : ℕ) : UInt8 := UInt8.ofNat n

/-- The bytes of a rune; what is no rune is written as the error rune. -/
def encodeRune (r : ℕ) : Bytes :=
  if r < 0x80 then [byteOf r]
  else if r < 0x800 then [byteOf (0xC0 + r / 64), byteOf (0x80 + r % 64)]
  else if 0xD800 ≤ r ∧ r ≤ 0xDFFF ∨ 0x10FFFF < r then [0xEF, 0xBF, 0xBD]
  else if r < 0x10000 then [byteOf (0xE0 + r / 4096), byteOf (0x80 + r / 64 % 64), byteOf (0x80 + r % 64)]
  else [byteOf (0xF0 + r / 262144), byteOf (0x80 + r / 4096 % 64), byteOf (0x80 + r / 64 % 64),
    byteOf (0x80 + r % 64)]

/-- The loop of a map over the runes, with `skip` bytes of the current one still in front. -/
def mapFrom (f : ℕ → ℕ) : ℕ → Bytes → Bytes
  | _, [] => []
  | skip + 1, _ :: rest => mapFrom f skip rest
  | 0, c :: rest =>
    let (r, size) := decodeRune (c :: rest)
    encodeRune (f r) ++ mapFrom f (size - 1) rest

def mapRunes (f : ℕ → ℕ) (s : Bytes) : Bytes := mapFrom f 0 s

theorem mapRunes_nil (f : ℕ → ℕ) : mapRunes f [] = [] := rfl

theorem mapFrom_cons (f : ℕ → ℕ) (c : UInt8) (s : Bytes) :
    mapFrom f 0 (c :: s) = encodeRune (f (decodeRune (c :: s)).1) ++
    mapFrom f ((decodeRune (c :: s)).2 - 1) s := rfl

/-! ## ASCII bytes -/

theorem decodeRune_ascii (c : UInt8) (s : Bytes) (hc : c < 0x80) : decodeRune (c :: s) = (c.toNat, 1) := by
  unfold decodeRune
  split
  all_goals simp_all

theorem accept3_ascii (c0 c : UInt8) (hc : c < 0x80) : accept3 c0 c = false := by
  have h := forall_byte (fun c => c < 0x80 →
    (!(0xA0 ≤ c && c ≤ 0xBF) && !(0x80 ≤ c && c ≤ 0x9F) && !isTail c) = true) (by decide +kernel) c hc
  simp only [Bool.and_eq_true, Bool.not_eq_true'] at h
  unfold accept3
  split
  · exact h.1.1
  · split
    · exact h.1.2
    · rw [h.2, Bool.and_false]

theorem accept4_ascii (c0 c : UInt8) (hc : c < 0x80) : accept4 c0 c = false := by
  have h := forall_byte (fun c => c < 0x80 →
    (!(0x90 ≤ c && c ≤ 0xBF) && !(0x80 ≤ c && c ≤ 0x8F) && !isTail c) = true) (by decide +kernel) c hc
  simp only [Bool.and_eq_true, Bool.not_eq_true'] at h
  unfold accept4
  split
  · exact h.1.1
  · split
    · exact h.1.2
    · rw [h.2, Bool.and_false]

theorem isTail_ascii (c : UInt8) (hc : c < 0x80) : isTail c = false :=
  forall_byte (fun c => c < 0x80 → isTail c = false) (by decide +kernel) c hc

/-- A sequence does not go on through an ASCII byte. -/
theorem decodeRune_append (a : Bytes) (ha : a ≠ []) (c : UInt8) (hc : c < 0x80) (b : Bytes) :
    decodeRune (a ++ c :: b) = decodeRune a := by
  have h1 := isTail_ascii c hc
  have h3 := fun c0 => accept3_ascii c0 c hc
  have h4 := fun c0 => accept4_ascii c0 c hc
  match a with
  | [] => exact absurd rfl ha
  | [c0] =>
    match b with
    | [] => simp [decodeRune, h1]
    | [b0] => simp [decodeRune, h1, h3]
    | b0 :: b1 :: b => simp [decodeRune, h1, h3, h4]
  | [c0, c1] =>
    match b with
    | [] => simp [decodeRune, h1]
    | b0 :: b => simp [decodeRune, h1]
  | [c0, c1, c2] => simp [decodeRune, h1]
  | c0 :: c1 :: c2 :: c3 :: a => simp [decodeRune]

theorem decodeRune_size (c : UInt8) (s : Bytes) :
    1 ≤ (decodeRune (c :: s)).2 ∧ (decodeRune (c :: s)).2 ≤ s.length + 1 := by
  unfold decodeRune
  split
  all_goals (try split_ifs)
  all_goals simp_all

/-- A map is taken apart at an ASCII byte. -/
theorem mapFrom_ascii (f : ℕ → ℕ) (skip : ℕ) (a : Bytes) (hskip : skip ≤ a.length) (c : UInt8)
    (hc : c < 0x80) (b : Bytes) :
    mapFrom f skip (a ++ c :: b) = mapFrom f skip a ++ (encodeRune (f c.toNat) ++ mapFrom f 0 b) := by
  induction a generalizing skip with
  | nil =>
    have h0 : skip = 0 := Nat.le_zero.mp hskip
    rw [h0, List.nil_append, mapFrom_cons, decodeRune_ascii c b hc]
    rfl
  | cons d a ih =>
    cases skip with
    | succ skip =>
      rw [List.cons_append, mapFrom, mapFrom]
      exact ih skip (Nat.le_of_succ_le_succ hskip)
    | zero =>
      have hsize := decodeRune_size d a
      have hsame := decodeRune_append (d :: a) (List.cons_ne_nil d a) c hc b
      rw [List.cons_append] at hsame
      rw [List.cons_append, mapFrom_cons, mapFrom_cons, hsame, ih _ (by omega), List.append_assoc]

theorem mapRunes_ascii (f : ℕ → ℕ) (a : Bytes) (c : UInt8) (hc : c < 0x80) (b : Bytes) :
    mapRunes f (a ++ c :: b) = mapRunes f a ++ (encodeRune (f c.toNat) ++ mapRunes f b) :=
  mapFrom_ascii f 0 a (Nat.zero_le _) c hc b

theorem encodeRune_ascii (c : UInt8) (hc : c < 0x80) : encodeRune c.toNat = [c] := by
  have hlt : c.toNat < 0x80 := UInt8.lt_iff_toNat_lt.mp hc
  rw [encodeRune, if_pos hlt, byteOf, UInt8.ofNat_toNat]

theorem lead2_bits (c : UInt8) (h : (0xC2 ≤ c && c ≤ 0xDF) = true) : 2 ≤ c.toNat % 32 :=
  forall_byte (fun c => (0xC2 ≤ c && c ≤ 0xDF) = true → 2 ≤ c.toNat % 32) (by decide +kernel) c h

theorem accept3_bits (c0 c1 : UInt8) (h : accept3 c0 c1 = true) : 1 ≤ c0.toNat % 16 ∨ 32 ≤ tailBits c1 := by
  have hfirst := forall_byte (fun c => (0xE1 ≤ c && c ≤ 0xEF) = true → 1 ≤ c.toNat % 16) (by decide +kernel) c0
  have hsecond := forall_byte (fun c => (0xA0 ≤ c && c ≤ 0xBF) = true → 32 ≤ tailBits c) (by decide +kernel) c1
  unfold accept3 at h
  split_ifs at h with h0 h1
  · exact .inr (hsecond h)
  · exact .inl (by rw [h1]; decide)
  · exact .inl (hfirst (Bool.and_eq_true_iff.mp h).1)

theorem accept4_bits (c0 c1 : UInt8) (h : accept4 c0 c1 = true) : 1 ≤ c0.toNat % 8 ∨ 16 ≤ tailBits c1 := by
  have hfirst := forall_byte (fun c => (0xF1 ≤ c && c ≤ 0xF3) = true → 1 ≤ c.toNat % 8) (by decide +kernel) c0
  have hsecond := forall_byte (fun c => (0x90 ≤ c && c ≤ 0xBF) = true → 16 ≤ tailBits c) (by decide +kernel) c1
  unfold accept4 at h
  split_ifs at h with h0 h1
  · exact .inr (hsecond h)
  · exact .inl (by rw [h1]; decide)
  · exact .inl (hfirst (Bool.and_eq_true_iff.mp h).1)

/-- A byte outside ASCII is no part of an ASCII rune. -/
theorem decodeRune_large (c : UInt8) (s : Bytes) (hc : ¬ c < 0x80) : 0x80 ≤ (decodeRune (c :: s)).1 := by
  have hlead := lead2_bits c
  have h3 := accept3_bits c
  have h4 := accept4_bits c
  unfold decodeRune
  split
  · next heq => cases heq
  · next heq =>
    obtain ⟨rfl, -⟩ := List.cons.inj heq
    rw [if_neg hc]
    exact (by decide)
  · next heq =>
    obtain ⟨rfl, -⟩ := List.cons.inj heq
    rw [if_neg hc]
    split_ifs with h
    · have := hlead (Bool.and_eq_true_iff.mp h).1
      simp only
      omega
    · exact (by decide)
  · next heq =>
    obtain ⟨rfl, -⟩ := List.cons.inj heq
    rw [if_neg hc]
    split_ifs with h h'
    · have := hlead (Bool.and_eq_true_iff.mp h).1
      simp only
      omega
    · have := h3 _ (Bool.and_eq_true_iff.mp h').1
      simp only
      omega
    · exact (by decide)
  · next heq =>
    obtain ⟨rfl, -⟩ := List.cons.inj heq
    rw [if_neg hc]
    split_ifs with h h' h''
    · have := hlead (Bool.and_eq_true_iff.mp h).1
      simp only
      omega
    · have := h3 _ (Bool.and_eq_true_iff.mp h').1
      simp only
      omega
    · have := h4 _ (Bool.and_eq_true_iff.mp (Bool.and_eq_true_iff.mp h'').1).1
      simp only
      omega
    · exact (by decide)

/-! ## Where a byte of the image comes from -/

/-- `q` stands for itself and is part of no other image. -/
def Fixed (f : ℕ → ℕ) (q : UInt8) : Prop :=
  q < 0x80 ∧ f q.toNat = q.toNat ∧ ∀ r, q ∈ encodeRune (f r) → r = q.toNat

theorem mapFrom_split (f : ℕ → ℕ) (q : UInt8) (hq : Fixed f q) (skip : ℕ) (s x y : Bytes)
    (h : mapFrom f skip s = x ++ q :: y) :
    ∃ a b, s = a ++ q :: b ∧ skip ≤ a.length ∧ x = mapFrom f skip a ∧ y = mapFrom f 0 b := by
  induction s generalizing skip x with
  | nil =>
    have hnil : x ++ q :: y = [] := by rw [← h, mapFrom]
    exact absurd (List.append_eq_nil_iff.mp hnil).2 (List.cons_ne_nil q y)
  | cons c s ih =>
    cases skip with
    | succ skip =>
      obtain ⟨a, b, hs, hlen, hx, hy⟩ := ih skip x h
      exact ⟨c :: a, b, by rw [hs, List.cons_append], Nat.succ_le_succ hlen, hx, hy⟩
    | zero =>
      rw [mapFrom_cons] at h
      have hbehind : ∀ x', x = encodeRune (f (decodeRune (c :: s)).1) ++ x' →
          mapFrom f ((decodeRune (c :: s)).2 - 1) s = x' ++ q :: y →
          ∃ a b, c :: s = a ++ q :: b ∧ 0 ≤ a.length ∧ x = mapFrom f 0 a ∧ y = mapFrom f 0 b := by
        intro x' hx' hrest
        obtain ⟨a, b, hs, hlen, hx, hy⟩ := ih _ x' hrest
        have hsame := decodeRune_append (c :: a) (List.cons_ne_nil c a) q hq.1 b
        rw [List.cons_append, ← hs] at hsame
        refine ⟨c :: a, b, by rw [hs, List.cons_append], Nat.zero_le _, ?_, hy⟩
        rw [mapFrom_cons, ← hsame, ← hx, hx']
      cases List.append_eq_append_iff.mp h with
      | inl hb =>
        obtain ⟨x', hx', hrest⟩ := hb
        exact hbehind x' hx' hrest
      | inr hin =>
        obtain ⟨z, hz, hrest⟩ := hin
        cases z with
        | nil => exact hbehind [] (by rw [hz, List.append_nil, List.append_nil]) hrest.symm
        | cons q' z =>
          obtain ⟨rfl, hy⟩ := List.cons.inj hrest
          -- the byte is part of the image of the first rune, which is then `q` itself
          have hr := hq.2.2 _ (by rw [hz]; simp)
          have hcq : c = q := by
            have hlarge := decodeRune_large c s
            rw [hr] at hlarge
            have hqlt := UInt8.lt_iff_toNat_lt.mp hq.1
            have hc : c < 0x80 := by
              by_contra hc
              exact absurd (hlarge hc) (Nat.not_le.mpr hqlt)
            rw [decodeRune_ascii c s hc] at hr
            exact UInt8.toNat_inj.mp hr
          have hone : x = [] ∧ z = [] := by
            rw [hr, hq.2.1, encodeRune_ascii q hq.1] at hz
            have hlen := congrArg List.length hz
            rw [List.length_append, List.length_cons, List.length_cons, List.length_nil] at hlen
            exact ⟨List.length_eq_zero_iff.mp (by omega), List.length_eq_zero_iff.mp (by omega)⟩
          refine ⟨[], s, by rw [hcq, List.nil_append], Nat.le_refl _, by rw [hone.1, mapFrom], ?_⟩
          rw [hone.2, hcq, decodeRune_ascii q s hq.1] at hy
          exact hy

theorem mapRunes_split (f : ℕ → ℕ) (q : UInt8) (hq : Fixed f q) (s x y : Bytes)
    (h : mapRunes f s = x ++ q :: y) :
    ∃ a b, s = a ++ q :: b ∧ x = mapRunes f a ∧ y = mapRunes f b := by
  obtain ⟨a, b, hs, -, hx, hy⟩ := mapFrom_split f q hq 0 s x y h
  exact ⟨a, b, hs, hx, hy⟩

/-! ## Lower case -/

/-- What is known of a mapping of runes to lower case: the ASCII letters, and that no other rune becomes an
ASCII byte that is not a small letter. -/
structure LowerCase (f : ℕ → ℕ) : Prop where
  ascii : ∀ r, r < 0x80 → f r = if 65 ≤ r ∧ r ≤ 90 then r + 32 else r
  other : ∀ r, 0x80 ≤ r → 0x80 ≤ f r ∨ 97 ≤ f r ∧ f r ≤ 122

def lowerByte (c : UInt8) : UInt8 := if 65 ≤ c.toNat ∧ c.toNat ≤ 90 then c + 32 else c

theorem toNat_byteOf (n : ℕ) : (byteOf n).toNat = n % 256 := UInt8.toNat_ofNat'

theorem mem_encodeRune_large (r : ℕ) (hr : 0x80 ≤ r) (c : UInt8) (hc : c ∈ encodeRune r) : 0x80 ≤ c.toNat := by
  unfold encodeRune at hc
  rw [if_neg (by omega)] at hc
  split_ifs at hc with h2 h3 h4
  · simp only [List.mem_cons, List.not_mem_nil, or_false] at hc
    rcases hc with rfl | rfl
    all_goals rw [toNat_byteOf]
    all_goals omega
  · simp only [List.mem_cons, List.not_mem_nil, or_false] at hc
    rcases hc with rfl | rfl | rfl
    all_goals decide
  · simp only [List.mem_cons, List.not_mem_nil, or_false] at hc
    rcases hc with rfl | rfl | rfl
    all_goals rw [toNat_byteOf]
    all_goals omega
  · simp only [List.mem_cons, List.not_mem_nil, or_false] at hc
    rcases hc with rfl | rfl | rfl | rfl
    all_goals rw [toNat_byteOf]
    all_goals omega

theorem encodeRune_small (r : ℕ) (hr : r < 0x80) : encodeRune r = [byteOf r] := if_pos hr

/-- A byte that is no letter stands for itself. -/
theorem LowerCase.fixed (f : ℕ → ℕ) (hf : LowerCase f) (q : UInt8) (hq : q < 0x80)
    (hupper : ¬ (65 ≤ q.toNat ∧ q.toNat ≤ 90)) (hlower : ¬ (97 ≤ q.toNat ∧ q.toNat ≤ 122)) : Fixed f q := by
  have hqn : q.toNat < 0x80 := UInt8.lt_iff_toNat_lt.mp hq
  refine ⟨hq, by rw [hf.ascii _ hqn, if_neg hupper], ?_⟩
  intro r hmem
  -- an image below 0x80 is one byte
  have hsmall : f r < 0x80 → q.toNat = f r := by
    intro h
    rw [encodeRune_small _ h, List.mem_singleton] at hmem
    rw [hmem, toNat_byteOf]
    omega
  by_cases hr : r < 0x80
  · have himage := hf.ascii r hr
    split_ifs at himage with hletter
    · have := hsmall (by omega)
      omega
    · have := hsmall (by omega)
      omega
  · cases hf.other r (by omega) with
    | inl hlarge =>
      have := mem_encodeRune_large _ hlarge q hmem
      omega
    | inr hletter =>
      have := hsmall (by omega)
      omega

theorem LowerCase.byte (f : ℕ → ℕ) (hf : LowerCase f) (c : UInt8) (hc : c < 0x80) :
    encodeRune (f c.toNat) = [lowerByte c] := by
  have hlt : c.toNat < 0x80 := UInt8.lt_iff_toNat_lt.mp hc
  rw [hf.ascii _ hlt]
  unfold lowerByte
  split_ifs with h
  · rw [encodeRune_small _ (by omega), byteOf]
    have hsum : UInt8.ofNat (c.toNat + 32) = c + 32 := by
      apply UInt8.toNat_inj.mp
      rw [UInt8.toNat_ofNat', UInt8.toNat_add]
      rfl
    rw [hsum]
  · rw [encodeRune_small _ hlt, byteOf, UInt8.ofNat_toNat]

/-- ASCII text in lower case. -/
theorem LowerCase.mapRunes_text (f : ℕ → ℕ) (hf : LowerCase f) (s : Bytes) (hs : ∀ c ∈ s, c < 0x80) :
    mapRunes f s = s.map lowerByte := by
  induction s with
  | nil => rfl
  | cons c s ih =>
    have hc := hs c List.mem_cons_self
    have h := mapRunes_ascii f [] c hc s
    rw [List.nil_append, mapRunes_nil, List.nil_append, hf.byte f c hc] at h
    rw [h, ih fun d hd => hs d (List.mem_cons_of_mem c hd), List.map_cons, List.singleton_append]

end Minilog.Lib
