import Minilog.Lib.Utf8
import Minilog.Output.Jsonl

/-! `sanitizeUtf8` repairs UTF-8, and does nothing else.

`validLength` finds exactly the units of the grammar (`validLength_unit`, `validLength_sound`), so the output
is the input repaired with U+FFFD. `sanitizeChecked` is the same function on positions, with every access
checked. -/
namespace Minilog.Output
open Lib
open Minilog.Parser
set_option autoImplicit false

/-! ## The units it finds -/

theorem leadByte_toNat (c : UInt8) : leadByte c =
    if 0xC2 ≤ c.toNat ∧ c.toNat ≤ 0xDF then some (2, 0x80, 0xBF)
    else if c.toNat = 0xE0 then some (3, 0xA0, 0xBF)
    else if 0xE1 ≤ c.toNat ∧ c.toNat ≤ 0xEC then some (3, 0x80, 0xBF)
    else if c.toNat = 0xED then some (3, 0x80, 0x9F)
    else if 0xEE ≤ c.toNat ∧ c.toNat ≤ 0xEF then some (3, 0x80, 0xBF)
    else if c.toNat = 0xF0 then some (4, 0x90, 0xBF)
    else if 0xF1 ≤ c.toNat ∧ c.toNat ≤ 0xF3 then some (4, 0x80, 0xBF)
    else if c.toNat = 0xF4 then some (4, 0x80, 0x8F)
    else none := by
  revert c
  exact forall_byte _ (by decide +kernel)

theorem le_toNat (a b : UInt8) : a ≤ b ↔ a.toNat ≤ b.toNat := UInt8.le_iff_toNat_le

/-- A byte between the bounds of its lead byte continues it. -/
theorem leadByte_opens (c b lo hi : UInt8) (len : ℕ) (h : leadByte c = some (len, lo, hi))
    (hlo : lo.toNat ≤ b.toNat) (hhi : b.toNat ≤ hi.toNat) :
    len = 2 ∧ (0xC2 ≤ c.toNat ∧ c.toNat ≤ 0xDF) ∧ Tail b ∨ len = 3 ∧ Open3 c b ∨ len = 4 ∧ Open4 c b := by
  rw [leadByte_toNat] at h
  unfold Open3 Open4 Tail
  split_ifs at h
  all_goals
    cases h
    simp only [UInt8.reduceToNat] at hlo hhi
    omega

theorem leadByte_two (c b : UInt8) (hc : 0xC2 ≤ c.toNat ∧ c.toNat ≤ 0xDF) (hb : Tail b) :
    ∃ lo hi, leadByte c = some (2, lo, hi) ∧ lo.toNat ≤ b.toNat ∧ b.toNat ≤ hi.toNat := by
  rw [leadByte_toNat, if_pos hc]
  exact ⟨_, _, rfl, hb.1, hb.2⟩

theorem leadByte_three (c b : UInt8) (h : Open3 c b) :
    ∃ lo hi, leadByte c = some (3, lo, hi) ∧ lo.toNat ≤ b.toNat ∧ b.toNat ≤ hi.toNat := by
  rw [leadByte_toNat]
  rcases h with ⟨ha, hb⟩ | ⟨ha, ha', hb⟩ | ⟨ha, hb⟩ | ⟨ha, ha', hb⟩
  · rw [if_neg (by omega), if_pos ha]
    exact ⟨_, _, rfl, hb⟩
  · rw [if_neg (by omega), if_neg (by omega), if_pos ⟨ha, ha'⟩]
    exact ⟨_, _, rfl, hb⟩
  · rw [if_neg (by omega), if_neg (by omega), if_neg (by omega), if_pos ha]
    exact ⟨_, _, rfl, hb⟩
  · rw [if_neg (by omega), if_neg (by omega), if_neg (by omega), if_neg (by omega), if_pos ⟨ha, ha'⟩]
    exact ⟨_, _, rfl, hb⟩

theorem leadByte_four (c b : UInt8) (h : Open4 c b) :
    ∃ lo hi, leadByte c = some (4, lo, hi) ∧ lo.toNat ≤ b.toNat ∧ b.toNat ≤ hi.toNat := by
  rw [leadByte_toNat]
  rcases h with ⟨ha, hb⟩ | ⟨ha, ha', hb⟩ | ⟨ha, hb⟩
  · rw [if_neg (by omega), if_neg (by omega), if_neg (by omega), if_neg (by omega), if_neg (by omega),
      if_pos ha]
    exact ⟨_, _, rfl, hb⟩
  · rw [if_neg (by omega), if_neg (by omega), if_neg (by omega), if_neg (by omega), if_neg (by omega),
      if_neg (by omega), if_pos ⟨ha, ha'⟩]
    exact ⟨_, _, rfl, hb⟩
  · rw [if_neg (by omega), if_neg (by omega), if_neg (by omega), if_neg (by omega), if_neg (by omega),
      if_neg (by omega), if_neg (by omega), if_pos ha]
    exact ⟨_, _, rfl, hb⟩

theorem isTail_iff (b : UInt8) : (0x80 ≤ b && b ≤ 0xBF) = true ↔ Tail b := by
  rw [Bool.and_eq_true, decide_eq_true_eq, decide_eq_true_eq, le_toNat, le_toNat]
  rfl

/-- Where a lead byte has enough bytes behind it. -/
theorem validLength_lead (c b : UInt8) (more : Bytes) (len : ℕ) (lo hi : UInt8)
    (hl : leadByte c = some (len, lo, hi)) (hroom : len ≤ more.length + 2) (hlo : lo.toNat ≤ b.toNat)
    (hhi : b.toNat ≤ hi.toNat) (htails : ∀ t ∈ more.take (len - 2), Tail t) :
    validLength (c :: b :: more) = some len := by
  have hhigh : ¬ c ≤ 0x7F := by
    intro hc
    rw [le_toNat] at hc
    simp only [UInt8.reduceToNat] at hc
    rw [leadByte_toNat] at hl
    split_ifs at hl
    all_goals omega
  have hbounds : (b < lo || hi < b) = false := by
    rw [Bool.or_eq_false_iff, decide_eq_false_iff_not, decide_eq_false_iff_not, UInt8.not_lt, UInt8.not_lt,
      le_toNat, le_toNat]
    exact ⟨hlo, hhi⟩
  have hall : (more.take (len - 2)).all (fun b => 0x80 ≤ b && b ≤ 0xBF) = true :=
    List.all_eq_true.mpr fun t ht => (isTail_iff t).mpr (htails t ht)
  unfold validLength
  dsimp only
  rw [if_neg hhigh, hl]
  dsimp only
  rw [List.length_cons, if_neg (by omega), hbounds, if_neg Bool.false_ne_true, if_pos hall]

theorem validLength_unit (q rest : Bytes) (h : Unit8 q) : validLength (q ++ rest) = some q.length := by
  cases h with
  | one a ha =>
    have hlow : a ≤ 0x7F := (le_toNat _ _).mpr ha
    rw [List.singleton_append, validLength, if_pos hlow]
    rfl
  | two a b ha hb =>
    obtain ⟨lo, hi, hl, hlo, hhi⟩ := leadByte_two a b ha hb
    exact validLength_lead a b rest 2 lo hi hl (by omega) hlo hhi (by simp)
  | three a b c hab hc =>
    obtain ⟨lo, hi, hl, hlo, hhi⟩ := leadByte_three a b hab
    exact validLength_lead a b (c :: rest) 3 lo hi hl (by simp) hlo hhi (by simpa using hc)
  | four a b c d hab hc hd =>
    obtain ⟨lo, hi, hl, hlo, hhi⟩ := leadByte_four a b hab
    exact validLength_lead a b (c :: d :: rest) 4 lo hi hl (by simp) hlo hhi (by simpa using ⟨hc, hd⟩)

/-- What it takes for a unit is one. -/
theorem validLength_sound (s : Bytes) (len : ℕ) (h : validLength s = some len) :
    ∃ q rest, Unit8 q ∧ s = q ++ rest ∧ q.length = len := by
  cases s with
  | nil => cases h
  | cons c rest =>
    unfold validLength at h
    dsimp only at h
    by_cases hlow : c ≤ 0x7F
    · rw [if_pos hlow] at h
      cases h
      exact ⟨[c], rest, .one c ((le_toNat _ _).mp hlow), rfl, rfl⟩
    rw [if_neg hlow] at h
    cases hl : leadByte c with
    | none =>
      rw [hl] at h
      cases h
    | some lead =>
      obtain ⟨n, lo, hi⟩ := lead
      rw [hl] at h
      dsimp only at h
      by_cases hroom : rest.length + 1 < n
      · rw [if_pos hroom] at h
        cases h
      rw [if_neg hroom] at h
      cases rest with
      | nil => cases h
      | cons b more =>
        dsimp only at h
        by_cases hbounds : (b < lo || hi < b) = true
        · rw [if_pos hbounds] at h
          cases h
        rw [if_neg hbounds] at h
        by_cases hall : (more.take (n - 2)).all (fun b => 0x80 ≤ b && b ≤ 0xBF) = true
        · rw [if_pos hall] at h
          cases h
          rw [Bool.not_eq_true, Bool.or_eq_false_iff, decide_eq_false_iff_not, decide_eq_false_iff_not,
            UInt8.not_lt, UInt8.not_lt, le_toNat, le_toNat] at hbounds
          have htails : ∀ t ∈ more.take (len - 2), Tail t :=
            fun t ht => (isTail_iff t).mp (List.all_eq_true.mp hall t ht)
          rw [List.length_cons] at hroom
          rcases leadByte_opens c b lo hi len hl hbounds.1 hbounds.2 with ⟨rfl, hc, hb⟩ | ⟨rfl, hcb⟩ |
            ⟨rfl, hcb⟩
          · exact ⟨[c, b], more, .two c b hc hb, rfl, rfl⟩
          · cases more with
            | nil => exact absurd hroom (by simp)
            | cons d more => exact ⟨[c, b, d], more, .three c b d hcb (htails d (by simp)), rfl, rfl⟩
          · cases more with
            | nil => exact absurd hroom (by simp)
            | cons d more =>
              cases more with
              | nil => exact absurd hroom (by simp)
              | cons e more =>
                exact ⟨[c, b, d, e], more, .four c b d e hcb (htails d (by simp)) (htails e (by simp)), rfl,
                  rfl⟩
        · rw [if_neg hall] at h
          cases h

/-! ## Repairing -/

theorem sanitizeFrom_skip (q rest : Bytes) : sanitizeFrom q.length (q ++ rest) = sanitizeUtf8 rest := by
  induction q with
  | nil => rfl
  | cons c q ih => exact ih

theorem sanitizeUtf8_unit (q rest : Bytes) (h : Unit8 q) :
    sanitizeUtf8 (q ++ rest) = q ++ sanitizeUtf8 rest := by
  obtain ⟨c, x, rfl, -⟩ := h.size
  have hvalid := validLength_unit _ rest h
  rw [List.cons_append] at hvalid ⊢
  rw [sanitizeUtf8, sanitizeFrom, hvalid]
  dsimp only
  rw [List.length_cons, Nat.add_sub_cancel, sanitizeFrom_skip, ← List.cons_append, ← List.length_cons,
    List.take_left]

theorem sanitizeUtf8_mark (b : UInt8) (s : Bytes) (h : validLength (b :: s) = none) :
    sanitizeUtf8 (b :: s) = kReplacement ++ sanitizeUtf8 s := by
  rw [sanitizeUtf8, sanitizeFrom, h]
  rfl

theorem sanitizeUtf8_repaired (s : Bytes) : Repaired kReplacement s (sanitizeUtf8 s) := by
  induction hn : s.length using Nat.strong_induction_on generalizing s with
  | _ n ih =>
    cases s with
    | nil => exact .done
    | cons b s =>
      cases hv : validLength (b :: s) with
      | none =>
        rw [sanitizeUtf8_mark b s hv]
        refine .marked b s _ (fun c hc => ?_) (ih s.length (by rw [← hn]; exact Nat.lt_succ_self _) s rfl)
        obtain ⟨rest, hrest⟩ := hc
        have hsome := validLength_unit _ rest (unit8_utf8EncodeChar c)
        rw [hrest, hv] at hsome
        cases hsome
      | some len =>
        obtain ⟨q, rest, hq, hsplit, -⟩ := validLength_sound _ len hv
        obtain ⟨c, rfl⟩ := hq.exists_utf8EncodeChar
        have hlen := congrArg List.length hsplit
        have hpos := List.length_pos_iff.mpr hq.ne_nil
        rw [List.length_append] at hlen
        rw [hsplit, sanitizeUtf8_unit _ rest hq]
        exact .copied c rest _ (ih rest.length (by omega) rest rfl)

theorem wellFormed_kReplacement : WellFormed kReplacement := ⟨[Char.ofNat 0xFFFD], by decide⟩

theorem wellFormed_sanitizeUtf8 (s : Bytes) : WellFormed (sanitizeUtf8 s) :=
  (sanitizeUtf8_repaired s).wellFormed wellFormed_kReplacement

/-! ## Reading -/

/-- `out.append(s.data() + i, len)`. -/
def appended (s : Bytes) (i len : ℕ) : Checked Bytes :=
  if i + len ≤ s.length then .ok ((s.drop i).take len) else .error .outOfRange

/-- The loop over the continuation bytes from `j` on. -/
def tailsValid (s : Bytes) (i len : ℕ) : ℕ → ℕ → Checked Bool
  | 0, _ => .ok true
  | fuel + 1, j =>
    if j < len then do
      let bj ← View.at_ s (i + j)
      if bj < 0x80 || 0xBF < bj then return false else tailsValid s i len fuel (j + 1)
    else return true

/-- One round at position `i`: what it appends and how far it goes. -/
def sanitizeRound (s : Bytes) (i : ℕ) : Checked (Bytes × ℕ) := do
  let c ← View.at_ s i
  if c ≤ 0x7F then return ([c], 1)
  else
    match leadByte c with
    | none => return (kReplacement, 1)
    | some (len, lo, hi) =>
      if s.length < i + len then return (kReplacement, 1)
      else
        let b1 ← View.at_ s (i + 1)
        if b1 < lo || hi < b1 then return (kReplacement, 1)
        else if ← tailsValid s i len len 2 then return (← appended s i len, len)
        else return (kReplacement, 1)

/-- The loop with room for `fuel` rounds. -/
def sanitizeLoop (s : Bytes) : ℕ → ℕ → Bytes → Checked Bytes
  | 0, _, out => .ok out
  | fuel + 1, i, out =>
    if i < s.length then do
      let (piece, n) ← sanitizeRound s i
      sanitizeLoop s fuel (i + n) (out ++ piece)
    else return out

def sanitizeChecked (s : Bytes) : Checked Bytes := sanitizeLoop s s.length 0 []

theorem at_middle (a : Bytes) (t : Bytes) (k : ℕ) : View.at_ (a ++ t) (a.length + k) = View.at_ t k := by
  unfold View.at_
  rw [List.getElem?_append_right (Nat.le_add_right _ _), Nat.add_sub_cancel_left]

/-- The continuation bytes are there when the sequence is not cut off. -/
theorem tailsValid_eq (a t : Bytes) (len fuel j : ℕ) (hlen : len ≤ t.length) (hfuel : len ≤ j + fuel) :
    tailsValid (a ++ t) a.length len fuel j = .ok (((t.drop j).take (len - j)).all fun b =>
      0x80 ≤ b && b ≤ 0xBF) := by
  induction fuel generalizing j with
  | zero =>
    have hnone : len - j = 0 := by omega
    rw [tailsValid, hnone]
    rfl
  | succ fuel ih =>
    unfold tailsValid
    by_cases hj : j < len
    · obtain ⟨b, hb⟩ : ∃ b, t[j]? = some b := by
        rw [← Option.isSome_iff_exists, isSome_getElem?]
        omega
      have hat : View.at_ (a ++ t) (a.length + j) = .ok b := by
        rw [at_middle, View.at_, hb]
      have hdrop : (t.drop j).take (len - j) = b :: (t.drop (j + 1)).take (len - (j + 1)) := by
        obtain ⟨hlt, hget⟩ := List.getElem?_eq_some_iff.mp hb
        rw [List.drop_eq_getElem_cons hlt, hget, show len - j = len - (j + 1) + 1 by omega, List.take_succ_cons]
      have hbad : (b < 0x80 || 0xBF < b) = !(0x80 ≤ b && b ≤ 0xBF) :=
        forall_byte (fun b => (b < 0x80 || 0xBF < b) = !(0x80 ≤ b && b ≤ 0xBF)) (by decide +kernel) b
      rw [if_pos hj, hat, View.ok_bind, hbad, hdrop, List.all_cons, ih (j + 1) (by omega)]
      cases (0x80 ≤ b && b ≤ 0xBF : Bool) with
      | false => rfl
      | true => rfl
    · rw [if_neg hj, show len - j = 0 by omega]
      rfl

/-- A round reads what `validLength` looks at, and nothing behind the end. -/
theorem sanitizeRound_eq (a : Bytes) (c : UInt8) (t : Bytes) : sanitizeRound (a ++ c :: t) a.length =
    .ok ((validLength (c :: t)).elim (kReplacement, 1) fun len => ((c :: t).take len, len)) := by
  have hc : View.at_ (a ++ c :: t) a.length = .ok c := View.at_append a t c
  unfold sanitizeRound validLength
  rw [hc, View.ok_bind]
  dsimp only
  by_cases hlow : c ≤ 0x7F
  · rw [if_pos hlow, if_pos hlow]
    rfl
  rw [if_neg hlow, if_neg hlow]
  cases hl : leadByte c with
  | none => rfl
  | some lead =>
    obtain ⟨len, lo, hi⟩ := lead
    dsimp only
    have hlength : (a ++ c :: t).length = a.length + (t.length + 1) := by
      rw [List.length_append, List.length_cons]
    rw [hlength]
    by_cases hroom : t.length + 1 < len
    · rw [if_pos (by omega), if_pos hroom]
      rfl
    rw [if_neg (by omega), if_neg hroom]
    have htwo : 2 ≤ len := by
      rw [leadByte_toNat] at hl
      split_ifs at hl
      all_goals
        cases hl
        omega
    cases t with
    | nil =>
      rw [List.length_nil] at hroom
      omega
    | cons b more =>
      have hb : View.at_ (a ++ c :: b :: more) (a.length + 1) = .ok b := by rw [at_middle]; rfl
      rw [hb, View.ok_bind]
      dsimp only
      by_cases hbounds : (b < lo || hi < b) = true
      · rw [if_pos hbounds, if_pos hbounds]
        rfl
      rw [if_neg hbounds, if_neg hbounds,
        tailsValid_eq a (c :: b :: more) len len 2 (Nat.le_of_not_lt hroom) (by omega), View.ok_bind]
      rw [List.drop_succ_cons, List.drop_succ_cons, List.drop_zero]
      cases hall : (more.take (len - 2)).all fun b => 0x80 ≤ b && b ≤ 0xBF with
      | false => rfl
      | true =>
        have hcopy : appended (a ++ c :: b :: more) a.length len = .ok ((c :: b :: more).take len) := by
          rw [appended, if_pos (by rw [hlength]; omega), List.drop_left]
        rw [if_pos rfl, if_pos rfl, hcopy]
        rfl

theorem sanitizeLoop_eq (fuel : ℕ) (a t out : Bytes) (hfuel : t.length ≤ fuel) :
    sanitizeLoop (a ++ t) fuel a.length out = .ok (out ++ sanitizeUtf8 t) := by
  induction fuel generalizing a t out with
  | zero =>
    rw [List.length_eq_zero_iff.mp (Nat.le_zero.mp hfuel)]
    exact congrArg Except.ok (List.append_nil out).symm
  | succ fuel ih =>
    unfold sanitizeLoop
    cases t with
    | nil =>
      rw [if_neg (by simp)]
      exact congrArg Except.ok (List.append_nil out).symm
    | cons c t =>
      rw [List.length_cons] at hfuel
      rw [if_pos (by simp), sanitizeRound_eq, View.ok_bind]
      cases hv : validLength (c :: t) with
      | none =>
        have hnext := ih (a ++ [c]) t (out ++ kReplacement) (by omega)
        rw [List.append_assoc, List.length_append, List.length_singleton] at hnext
        rw [sanitizeUtf8_mark c t hv, ← List.append_assoc]
        exact hnext
      | some len =>
        obtain ⟨q, rest, hq, hsplit, hlen⟩ := validLength_sound _ len hv
        have hpos := List.length_pos_iff.mpr hq.ne_nil
        have hcount := congrArg List.length hsplit
        rw [List.length_cons, List.length_append] at hcount
        have hnext := ih (a ++ q) rest (out ++ q) (by omega)
        rw [List.append_assoc, ← hsplit, List.length_append, hlen, List.append_assoc,
          ← sanitizeUtf8_unit q rest hq, ← hsplit] at hnext
        have htake : (c :: t).take len = q := by rw [hsplit, ← hlen, List.take_left]
        dsimp only [Option.elim]
        rw [htake]
        exact hnext

/-! ## The result -/

/-- `sanitizeUtf8` repairs every byte string, leaves alone exactly the well-formed ones, and reads nothing
behind the end. -/
theorem sanitizeUtf8_repairs (s : Bytes) :
    WellFormed (sanitizeUtf8 s) ∧ (sanitizeUtf8 s = s ↔ WellFormed s) ∧
    sanitizeUtf8 (sanitizeUtf8 s) = sanitizeUtf8 s ∧
      (∀ out, Repaired kReplacement s out ↔ out = sanitizeUtf8 s) ∧
      sanitizeChecked s = .ok (sanitizeUtf8 s) := by
  have hsame : ∀ t, WellFormed t → sanitizeUtf8 t = t :=
    fun t ht => (sanitizeUtf8_repaired t).unique t (repaired_self ht)
  refine ⟨wellFormed_sanitizeUtf8 s, ⟨fun h => h ▸ wellFormed_sanitizeUtf8 s, hsame s⟩,
    hsame _ (wellFormed_sanitizeUtf8 s), fun out => ⟨fun h => ?_, fun h => ?_⟩, ?_⟩
  · exact h.unique _ (sanitizeUtf8_repaired s)
  · rw [h]
    exact sanitizeUtf8_repaired s
  · exact sanitizeLoop_eq s.length [] s [] (Nat.le_refl _)

end Minilog.Output
