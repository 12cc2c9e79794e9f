import Minilog.Parser.Syslog

/-! The grammar the parser accepts, and the classification of every datagram by it.

Each scanner gets two lemmas: on input of its form it returns the parts (`parsePri_form`,
`parse3164Timestamp_form`), and on any input it either refuses or the input has the form
(`parsePri_refuses`, `parse3164Timestamp_refuses`). Together they say that no access is out of
range, since both outcomes are `.ok`. -/
namespace Minilog.Parser
open Lib Lib.View
set_option autoImplicit false

/-- The value of a digit string. -/
def decimal (ds : Bytes) : ℕ := ds.foldl (fun v c => v * 10 + digitValue c) 0

/-! ## The forms -/

def IsPri (D : Bytes) : Prop :=
  1 ≤ D.length ∧ D.length ≤ 3 ∧ (∀ c ∈ D, isDigit c = true) ∧ decimal D ≤ 191

def IsSpaces (S : Bytes) : Prop := S ≠ [] ∧ ∀ c ∈ S, c = space

def IsDay (DD : Bytes) : Prop :=
  1 ≤ DD.length ∧ DD.length ≤ 2 ∧ (∀ c ∈ DD, isDigit c = true) ∧ 1 ≤ decimal DD ∧ decimal DD ≤ 31

/-- `HH:MM:SS` with 00..23, 00..59 and 00..59. -/
def IsClock (T : Bytes) : Prop :=
  ∃ HH MM SS : Bytes, T = HH ++ ascii ":" ++ MM ++ ascii ":" ++ SS ∧
    HH.length = 2 ∧ MM.length = 2 ∧ SS.length = 2 ∧ (∀ c ∈ HH ++ MM ++ SS, isDigit c = true) ∧
    decimal HH ≤ 23 ∧ decimal MM ≤ 59 ∧ decimal SS ≤ 59

/-- `M S+ DD S+ HH:MM:SS`. -/
def IsTimestamp (ts : Bytes) : Prop :=
  ∃ M S₁ DD S₂ T : Bytes, ts = M ++ S₁ ++ DD ++ S₂ ++ T ∧
    M ∈ kMonths ∧ IsSpaces S₁ ∧ IsDay DD ∧ IsSpaces S₂ ∧ IsClock T

/-- `'<' D '>' V ' ' R`. -/
def Rfc5424Form (d D V R : Bytes) : Prop :=
  d = ascii "<" ++ D ++ ascii ">" ++ V ++ ascii " " ++ R ∧
    IsPri D ∧ (V = ascii "1" ∨ V = ascii "01") ∧ 4 ≤ R.count space

/-- `'<' D '>' M S+ DD S+ HH:MM:SS rest`. -/
def Rfc3164Form (d D ts rest : Bytes) : Prop :=
  d = ascii "<" ++ D ++ ascii ">" ++ ts ++ rest ∧ IsPri D ∧ IsTimestamp ts

/-! ## PRI -/

/-- The loop stops at a byte that is no digit, or after the third digit. -/
theorem parsePriDigits_append (a b : Bytes) (ha : ∀ c ∈ a, isDigit c = true) (pri digits : ℕ)
    (hlen : digits + a.length ≤ 3) (hb : (∀ c ∈ b.head?, isDigit c = false) ∨ digits + a.length = 3) :
    parsePriDigits (a ++ b) pri digits =
      (a.foldl (fun v c => v * 10 + digitValue c) pri, digits + a.length, b) := by
  induction a generalizing pri digits with
  | nil =>
    cases b with
    | nil => rfl
    | cons c b =>
      have hstop : (isDigit c && decide (digits < 3)) = false := by
        rcases hb with hb | hb
        · simp [hb c rfl]
        · simp only [List.length_nil, add_zero] at hb
          simp [hb]
      simp [parsePriDigits, hstop]
  | cons c a ih =>
    simp only [List.length_cons] at hlen hb
    have hc : isDigit c = true := ha c (by simp)
    have hd : digits < 3 := by omega
    rw [List.cons_append, parsePriDigits, hc, decide_eq_true hd, Bool.and_true, if_pos rfl,
      ih (fun d hd => ha d (by simp [hd])) _ _ (by omega) (hb.imp_right fun h => by omega)]
    simp only [List.foldl_cons, List.length_cons, Prod.mk.injEq, true_and, and_true]
    omega

theorem isDigit_ne_gt (c : UInt8) (h : isDigit c = true) : c ≠ 0x3E := by
  rintro rfl
  exact absurd h (by decide)

theorem parsePri_form (D rest : Bytes) (hD : IsPri D) :
    parsePri (ascii "<" ++ D ++ ascii ">" ++ rest) = some (decimal D, rest) := by
  obtain ⟨h1, h3, hdig, hval⟩ := hD
  have hloop := parsePriDigits_append D (0x3E :: rest) hdig 0 0 (by omega) (.inl (by simp [isDigit]))
  have hshape : ascii "<" ++ D ++ ascii ">" ++ rest = 0x3C :: (D ++ 0x3E :: rest) := by simp [ascii]
  have hne : ¬ D.length = 0 := by omega
  have hle : ¬ 191 < decimal D := by omega
  rw [hshape, parsePri, if_neg (by simp), hloop]
  simp only [zero_add, ne_eq, not_true_eq_false, or_false, if_neg hne]
  rw [← decimal, if_neg hle]

theorem parsePri_refuses (sv : Bytes) :
    parsePri sv = none ∨ ∃ D rest, IsPri D ∧ sv = ascii "<" ++ D ++ ascii ">" ++ rest := by
  cases sv with
  | nil => exact .inl rfl
  | cons c sv =>
    by_cases hc : c = 0x3C
    · obtain ⟨a, b, hab, ha, hb⟩ := run_split isDigit sv
      rw [parsePri, if_neg (by simpa using hc)]
      by_cases hlen : a.length ≤ 3
      · rw [hab, parsePriDigits_append a b ha 0 0 (by omega) (.inl hb)]
        cases b with
        | nil => exact .inl rfl
        | cons e rest =>
          simp only [zero_add]
          by_cases hz : a.length = 0 ∨ e ≠ 0x3E
          · exact .inl (if_pos hz)
          · rw [if_neg hz]
            by_cases hv : 191 < decimal a
            · exact .inl (if_pos hv)
            · simp only [not_or, not_not] at hz
              refine .inr ⟨a, rest, ⟨by omega, hlen, ha, by omega⟩, ?_⟩
              simp [ascii, hc, hz.2]
      · -- a fourth digit stands where `>` is wanted
        left
        have hsplit : sv = a.take 3 ++ (a.drop 3 ++ b) := by
          rw [hab, ← List.append_assoc, List.take_append_drop]
        have htake : (a.take 3).length = 3 := by rw [List.length_take]; omega
        obtain ⟨e, t, het⟩ : ∃ e t, a.drop 3 = e :: t := by
          apply List.exists_cons_of_length_pos
          rw [List.length_drop]
          omega
        have hloop := parsePriDigits_append (a.take 3) (a.drop 3 ++ b)
          (fun d hd => ha d (List.mem_of_mem_take hd)) 0 0 (by omega) (.inr (by omega))
        rw [hsplit, hloop, het]
        have he : isDigit e = true := ha e (List.mem_of_mem_drop (het ▸ List.mem_cons_self))
        simp [isDigit_ne_gt e he]
    · exact .inl (by rw [parsePri, if_pos hc])

/-! ## The RFC 3164 timestamp -/

theorem isMonthPrefix_form (M rest : Bytes) (hM : M ∈ kMonths) : isMonthPrefix (M ++ rest) = .ok true := by
  have hlen : ∀ m ∈ kMonths, m.length = 3 := by decide
  obtain ⟨c0, c1, c2, rfl⟩ := List.length_eq_three.mp (hlen M hM)
  have hany : (kMonths.any fun m => m == [c0, c1, c2]) = true := by
    rw [List.any_eq_true]
    exact ⟨_, hM, by simp⟩
  simp [isMonthPrefix, hany]

theorem isMonthPrefix_refuses (sv : Bytes) :
    isMonthPrefix sv = .ok false ∨ ∃ M rest, M ∈ kMonths ∧ sv = M ++ rest := by
  by_cases hlen : sv.length < 3
  · exact .inl (by rw [isMonthPrefix, if_pos hlen]; rfl)
  · obtain ⟨c0, c1, c2, rest, rfl⟩ : ∃ c0 c1 c2 rest, sv = c0 :: c1 :: c2 :: rest := by
      match sv, hlen with
      | c0 :: c1 :: c2 :: rest, _ => exact ⟨c0, c1, c2, rest, rfl⟩
      | [], h | [_], h | [_, _], h => exact absurd (by simp) h
    by_cases hM : [c0, c1, c2] ∈ kMonths
    · exact .inr ⟨_, rest, hM, rfl⟩
    · left
      have hany : (kMonths.any fun m => m == [c0, c1, c2]) = false := by
        rw [List.any_eq_false]
        intro m hm he
        exact hM (eq_of_beq he ▸ hm)
      simp [isMonthPrefix, hany]

theorem hasAt_append (a b : Bytes) (c d : UInt8) : hasAt (a ++ c :: b) a.length d = .ok (c == d) := by
  simp [hasAt, at_append]

/-- At the start of a maximal run of `d`, the test says whether the run is there at all. -/
theorem hasAt_run (pre a b : Bytes) (d : UInt8) (ha : ∀ c ∈ a, (c == d) = true)
    (hb : ∀ c ∈ b.head?, (c == d) = false) : hasAt (pre ++ (a ++ b)) pre.length d = .ok (decide (a ≠ [])) := by
  cases a with
  | cons c a => simp [hasAt_append, ha c (by simp)]
  | nil =>
    cases b with
    | nil => simp [hasAt]
    | cons c b => simp [hasAt_append, hb c rfl]

theorem readDay_form (a DD b : Bytes) (hlen : 1 ≤ DD.length ∧ DD.length ≤ 2) :
    readDay (a ++ (DD ++ b)) a.length DD.length = .ok (decimal DD) := by
  match DD, hlen with
  | [x], _ =>
    rw [readDay, List.length_singleton, if_pos rfl, List.singleton_append, at_append]
    simp [decimal]
  | [x, y], _ =>
    have hy : at_ (a ++ ([x, y] ++ b)) (a.length + 1) = .ok y := by
      have h := at_append (a ++ [x]) b y
      rwa [List.length_append, List.append_assoc] at h
    rw [readDay, if_neg (by simp), hy]
    simp only [List.cons_append, List.nil_append, at_append, ok_bind, pure_eq_ok, Except.ok.injEq]
    simp [decimal]

theorem eight_bytes (t : Bytes) (h : t.length = 8) :
    ∃ c0 c1 c2 c3 c4 c5 c6 c7, t = [c0, c1, c2, c3, c4, c5, c6, c7] := by
  match t, h with
  | [c0, c1, c2, c3, c4, c5, c6, c7], _ => exact ⟨c0, c1, c2, c3, c4, c5, c6, c7, rfl⟩

theorem isClock_bytes (c0 c1 c2 c3 c4 c5 c6 c7 : UInt8) :
    IsClock [c0, c1, c2, c3, c4, c5, c6, c7] ↔
      isDigit c0 = true ∧ isDigit c1 = true ∧ c2 = 0x3A ∧ isDigit c3 = true ∧ isDigit c4 = true ∧ c5 = 0x3A ∧
      isDigit c6 = true ∧ isDigit c7 = true ∧ decimal [c0, c1] ≤ 23 ∧ decimal [c3, c4] ≤ 59 ∧
      decimal [c6, c7] ≤ 59 := by
  constructor
  · rintro ⟨HH, MM, SS, hT, hH, hM, hS, hdig, h1, h2, h3⟩
    obtain ⟨h0, h0', rfl⟩ := List.length_eq_two.mp hH
    obtain ⟨m0, m0', rfl⟩ := List.length_eq_two.mp hM
    obtain ⟨s0, s0', rfl⟩ := List.length_eq_two.mp hS
    simp only [ascii, String.reduceToList, List.map_cons, List.map_nil, List.cons_append, List.nil_append,
      List.cons.injEq, and_true] at hT
    obtain ⟨rfl, rfl, h4, rfl, rfl, h5, rfl, rfl⟩ := hT
    refine ⟨hdig _ (by simp), hdig _ (by simp), h4, hdig _ (by simp), hdig _ (by simp), h5,
      hdig _ (by simp), hdig _ (by simp), h1, h2, h3⟩
  · rintro ⟨d0, d1, rfl, d3, d4, rfl, d6, d7, h1, h2, h3⟩
    refine ⟨[c0, c1], [c3, c4], [c6, c7], rfl, rfl, rfl, rfl, ?_, h1, h2, h3⟩
    simp [d0, d1, d3, d4, d6, d7]

theorem isClockTime_eq (t : Bytes) (h : t.length = 8) :
    ∃ b, isClockTime t = .ok b ∧ (b = true ↔ IsClock t) := by
  obtain ⟨c0, c1, c2, c3, c4, c5, c6, c7, rfl⟩ := eight_bytes t h
  rw [isClock_bytes]
  simp only [isClockTime, at_succ, at_zero, ok_bind, pure_eq_ok, decimal, List.foldl_cons, List.foldl_nil,
    zero_mul, zero_add]
  split
  · next hbad =>
    refine ⟨false, rfl, ?_⟩
    simp only [Bool.or_eq_true, Bool.not_eq_true', bne_iff_ne, ne_eq] at hbad
    grind
  · next hgood =>
    simp only [Bool.or_eq_true, Bool.not_eq_true', bne_iff_ne, ne_eq] at hgood
    split
    · next hbad =>
      refine ⟨false, rfl, ?_⟩
      simp only [Bool.or_eq_true, decide_eq_true_eq] at hbad
      grind
    · next hrange =>
      refine ⟨true, rfl, ?_⟩
      simp only [Bool.or_eq_true, decide_eq_true_eq] at hrange
      grind

/-- The scanner on a view already cut into its runs: every refusal is one of the tests below. -/
theorem parse3164Timestamp_runs (M S₁ DD S₂ r : Bytes) (hM : M ∈ kMonths)
    (hS₁ : ∀ c ∈ S₁, (c == space) = true) (hd₁ : ∀ c ∈ (DD ++ (S₂ ++ r)).head?, (c == space) = false)
    (hDD : ∀ c ∈ DD, isDigit c = true) (hd₂ : ∀ c ∈ (S₂ ++ r).head?, isDigit c = false)
    (hS₂ : ∀ c ∈ S₂, (c == space) = true) (hd₃ : ∀ c ∈ r.head?, (c == space) = false) :
    parse3164Timestamp (M ++ (S₁ ++ (DD ++ (S₂ ++ r)))) =
      if S₁ = [] then .ok none
      else if DD.length = 0 ∨ 2 < DD.length then .ok none
      else if decimal DD < 1 ∨ 31 < decimal DD then .ok none
      else if S₂ = [] then .ok none
      else if r.length < 8 then .ok none
      else do
        if !(← isClockTime (r.take 8)) then return none
        return some (M ++ S₁ ++ DD ++ S₂ ++ r.take 8, dropSpace (r.drop 8)) := by
  have hlen : ∀ m ∈ kMonths, m.length = 3 := by decide
  have hM3 := hlen M hM
  have hmonth := isMonthPrefix_form M (S₁ ++ (DD ++ (S₂ ++ r))) hM
  have hsp₁ := hasAt_run M S₁ (DD ++ (S₂ ++ r)) space hS₁ hd₁
  have hscan₁ := scan_append (· == space) M S₁ (DD ++ (S₂ ++ r)) hS₁ hd₁
  have hscan₂ := scan_append isDigit (M ++ S₁) DD (S₂ ++ r) hDD hd₂
  have hsp₂ := hasAt_run (M ++ S₁ ++ DD) S₂ r space hS₂ hd₃
  have hscan₃ := scan_append (· == space) (M ++ S₁ ++ DD) S₂ r hS₂ hd₃
  simp only [List.append_assoc, List.length_append, hM3, ← Nat.add_assoc] at hsp₁ hscan₁ hscan₂ hsp₂ hscan₃
  unfold parse3164Timestamp
  simp only [hmonth, ok_bind, Bool.not_true, Bool.false_eq_true, if_false, hsp₁, pure_eq_ok]
  by_cases h1 : S₁ = []
  · simp [h1]
  simp only [h1, ne_eq, not_false_eq_true, decide_true, Bool.not_true, Bool.false_eq_true, if_false, hscan₁,
    hscan₂, ok_bind, Nat.add_sub_cancel_left]
  by_cases h2 : DD.length = 0 ∨ 2 < DD.length
  · rw [if_pos h2, if_pos h2]
  rw [if_neg h2, if_neg h2]
  have hday := readDay_form (M ++ S₁) DD (S₂ ++ r) (by omega)
  simp only [List.append_assoc, List.length_append, hM3] at hday
  simp only [hday, ok_bind]
  by_cases h3 : decimal DD < 1 ∨ 31 < decimal DD
  · rw [if_pos h3, if_pos h3]
  rw [if_neg h3, if_neg h3]
  simp only [hsp₂, hscan₃, ok_bind]
  by_cases h4 : S₂ = []
  · simp [h4]
  simp only [h4, ne_eq, not_false_eq_true, decide_true, Bool.not_true, Bool.false_eq_true, if_false]
  -- from here on only the cut between the four runs and the rest matters
  obtain ⟨pre, hpre⟩ : ∃ pre, pre = M ++ S₁ ++ DD ++ S₂ := ⟨_, rfl⟩
  have hsv : M ++ (S₁ ++ (DD ++ (S₂ ++ r))) = pre ++ r := by rw [hpre]; simp only [List.append_assoc]
  have hplen : 3 + S₁.length + DD.length + S₂.length = pre.length := by
    rw [hpre]; simp only [List.length_append, hM3]
  rw [hsv, hplen, ← hpre]
  by_cases h5 : r.length < 8
  · rw [if_pos h5, if_pos (by rw [List.length_append]; omega)]
  rw [if_neg h5, if_neg (by rw [List.length_append]; omega), substr_cut]
  have hts : substr (pre ++ r) 0 (pre.length + 8) = .ok (pre ++ r.take 8) := by
    simp [substr, List.take_append, List.take_of_length_le]
  have hrest : removePrefix (pre ++ r) (pre.length + 8) = .ok (r.drop 8) := by
    rw [removePrefix, if_pos (by rw [List.length_append]; omega)]
    simp [List.drop_append]
  simp only [ok_bind, hts, hrest]

theorem digit_not_space (c : UInt8) (h : isDigit c = true) : (c == space) = false := by
  rw [beq_eq_false_iff_ne]
  rintro rfl
  exact absurd h (by decide)

theorem space_not_digit (c : UInt8) (h : (c == space) = true) : isDigit c = false := by
  rw [eq_of_beq h]
  rfl

/-- A non-empty run decides what the first byte of a text that starts with it is. -/
theorem head_run (p : UInt8 → Prop) (a b : Bytes) (hne : a ≠ []) (ha : ∀ c ∈ a, p c) :
    ∀ c ∈ (a ++ b).head?, p c := by
  obtain ⟨d, t, rfl⟩ := List.exists_cons_of_ne_nil hne
  intro c hc
  cases hc
  exact ha d (by simp)

theorem isClock_head (T rest : Bytes) (hT : IsClock T) : ∀ c ∈ (T ++ rest).head?, isDigit c = true := by
  obtain ⟨HH, MM, SS, rfl, hH, _, _, hdig, _⟩ := hT
  simp only [List.append_assoc]
  exact head_run _ HH _ (by rintro rfl; simp at hH) fun c hc => hdig c (by simp [hc])

theorem isClock_length (T : Bytes) (hT : IsClock T) : T.length = 8 := by
  obtain ⟨HH, MM, SS, rfl, hH, hM, hS, _⟩ := hT
  simp [ascii, hH, hM, hS]

theorem parse3164Timestamp_form (ts rest : Bytes) (h : IsTimestamp ts) :
    parse3164Timestamp (ts ++ rest) = .ok (some (ts, dropSpace rest)) := by
  obtain ⟨M, S₁, DD, S₂, T, rfl, hM, hS₁, hDD, hS₂, hT⟩ := h
  obtain ⟨hd1, hd2, hdig, hv1, hv2⟩ := hDD
  have hDne : DD ≠ [] := by rintro rfl; simp at hd1
  have hsp₁ : ∀ c ∈ S₁, (c == space) = true := fun c hc => by rw [hS₁.2 c hc]; rfl
  have hsp₂ : ∀ c ∈ S₂, (c == space) = true := fun c hc => by rw [hS₂.2 c hc]; rfl
  have hlen := isClock_length T hT
  have hruns := parse3164Timestamp_runs M S₁ DD S₂ (T ++ rest) hM hsp₁
    (fun c hc => digit_not_space c (head_run _ DD _ hDne hdig c hc)) hdig
    (fun c hc => space_not_digit c (head_run _ S₂ _ hS₂.1 hsp₂ c hc)) hsp₂
    (fun c hc => digit_not_space c (isClock_head T rest hT c hc))
  have htake : (T ++ rest).take 8 = T := by rw [← hlen, List.take_left]
  have hdrop : (T ++ rest).drop 8 = rest := by rw [← hlen, List.drop_left]
  obtain ⟨b, hb, hbT⟩ := isClockTime_eq T hlen
  rw [htake, hdrop, if_neg hS₁.1, if_neg (by omega), if_neg (by omega), if_neg hS₂.1,
    if_neg (by rw [List.length_append]; omega), hb, hbT.mpr hT] at hruns
  simp only [List.append_assoc] at hruns ⊢
  exact hruns

theorem parse3164Timestamp_refuses (sv : Bytes) :
    parse3164Timestamp sv = .ok none ∨ ∃ ts rest, IsTimestamp ts ∧ sv = ts ++ rest := by
  rcases isMonthPrefix_refuses sv with hm | ⟨M, r₁, hM, rfl⟩
  · left
    simp [parse3164Timestamp, hm]
  obtain ⟨S₁, r₂, rfl, hS₁, hd₁⟩ := run_split (· == space) r₁
  obtain ⟨DD, r₃, rfl, hDD, hd₂⟩ := run_split isDigit r₂
  obtain ⟨S₂, r, rfl, hS₂, hd₃⟩ := run_split (· == space) r₃
  rw [parse3164Timestamp_runs M S₁ DD S₂ r hM hS₁ hd₁ hDD hd₂ hS₂ hd₃]
  by_cases h1 : S₁ = []
  · exact .inl (if_pos h1)
  by_cases h2 : DD.length = 0 ∨ 2 < DD.length
  · exact .inl (by rw [if_neg h1, if_pos h2])
  by_cases h3 : decimal DD < 1 ∨ 31 < decimal DD
  · exact .inl (by rw [if_neg h1, if_neg h2, if_pos h3])
  by_cases h4 : S₂ = []
  · exact .inl (by rw [if_neg h1, if_neg h2, if_neg h3, if_pos h4])
  by_cases h5 : r.length < 8
  · exact .inl (by rw [if_neg h1, if_neg h2, if_neg h3, if_neg h4, if_pos h5])
  have hlen : (r.take 8).length = 8 := by rw [List.length_take]; omega
  obtain ⟨b, hb, hbT⟩ := isClockTime_eq (r.take 8) hlen
  cases b with
  | false => exact .inl (by rw [if_neg h1, if_neg h2, if_neg h3, if_neg h4, if_neg h5, hb]; rfl)
  | true =>
    refine .inr ⟨M ++ S₁ ++ DD ++ S₂ ++ r.take 8, r.drop 8,
      ⟨M, S₁, DD, S₂, r.take 8, rfl, hM, ?_, ?_, ?_, ?_⟩, ?_⟩
    · exact ⟨h1, fun c hc => eq_of_beq (hS₁ c hc)⟩
    · exact ⟨by omega, by omega, hDD, by omega, by omega⟩
    · exact ⟨h4, fun c hc => eq_of_beq (hS₂ c hc)⟩
    · exact hbT.mp rfl
    · simp only [List.append_assoc, List.take_append_drop]

end Minilog.Parser
