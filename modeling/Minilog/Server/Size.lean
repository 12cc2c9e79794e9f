import Minilog.Server.Ini

/-! Sizes in the configuration (`parseSize` in `config/config.cpp`), with the exceptions of the standard
library it meets.

`parseSizeThrowing` calls `std::stoull`, which can throw an exception of another type; `parseSizeThrowing_eq`
says that only `std::runtime_error` leaves it, with the message of `parseSize`. `SizeText` is what a size
looks like. -/
namespace Minilog.Server
open Lib
open Minilog.Parser
set_option autoImplicit false

/-- The exceptions on the way, with what `what()` says where it is read. -/
inductive Exception where
  | runtimeError (message : Bytes)
  | outOfRange
  | invalidArgument
deriving DecidableEq

/-- `std::stoull(raw)`. -/
def stoull (raw : Bytes) : Except Exception ℕ :=
  match parseInteger raw with
  | none => .error .invalidArgument
  | some (value, _) => if value.natAbs < 2 ^ 64 then .ok (value % 2 ^ 64).toNat else .error .outOfRange

/-- `try x catch (const std::out_of_range&) throw std::runtime_error(message);` -/
def catchOutOfRange {α : Type} (message : Bytes) : Except Exception α → Except Exception α
  | .error .outOfRange => .error (.runtimeError message)
  | x => x

def parseSizeThrowing (raw : Bytes) (allowZero : Bool) : Except Exception ℕ :=
  if raw = [] then .error (.runtimeError (ascii "Empty size value"))
  else
    let i := (raw.takeWhile isDigit).length
    if i = 0 then .error (.runtimeError (ascii "Invalid size (no numeric part): " ++ quoted raw))
    else
      match catchOutOfRange (ascii "Size out of range: " ++ quoted raw) (stoull (raw.take i)) with
      | .error e => .error e
      | .ok num =>
        if num = 0 ∧ allowZero = false then .error (.runtimeError (ascii "Size must be > 0: " ++ quoted raw))
        else
          let unit := (trim (raw.drop i)).map toLower
          match sizeUnit unit with
          | none =>
            .error (.runtimeError (ascii "Unknown size unit " ++ quoted unit ++ ascii " in: " ++ quoted raw))
          | some mult =>
            if (2 ^ 64 - 1) / mult < num then
              .error (.runtimeError (ascii "Size too large: " ++ quoted raw ++ ascii " overflows 64 bits"))
            else .ok ((num * mult) % 2 ^ 64)

/-! ## Only one type of exception -/

theorem parseInteger_digits (D : Bytes) (hne : D ≠ []) (hdig : ∀ c ∈ D, isDigit c = true) :
    parseInteger D = some ((decimal D : ℤ), D.length) := by
  have hall : D.takeWhile isDigit = D := List.takeWhile_eq_self_iff.mpr hdig
  cases D with
  | nil => exact absurd rfl hne
  | cons c t =>
    have hc := forall_byte (fun c => isDigit c = true → isSpace c = false ∧ c ≠ 0x2D ∧
      c ≠ 0x2B) (by decide +kernel) c (hdig c List.mem_cons_self)
    have hblanks : (c :: t).takeWhile isSpace = [] :=
      List.takeWhile_cons_of_neg (by rw [hc.1]; exact Bool.false_ne_true)
    unfold parseInteger
    rw [hblanks, List.length_nil]
    dsimp only
    split
    · next heq => exact absurd (List.cons.inj heq).1 hc.2.1
    · next heq => exact absurd (List.cons.inj heq).1 hc.2.2
    · change (if (c :: t).takeWhile isDigit = [] then none
        else some ((1 : ℤ) * (decimal ((c :: t).takeWhile isDigit) : ℤ), (c :: t).length - (c :: t).length +
          ((c :: t).takeWhile isDigit).length)) = _
      rw [hall, if_neg (List.cons_ne_nil c t), one_mul, Nat.sub_self, Nat.zero_add]

theorem stoull_digits (D : Bytes) (hne : D ≠ []) (hdig : ∀ c ∈ D, isDigit c = true) :
    stoull D = if decimal D < 2 ^ 64 then .ok (decimal D) else .error .outOfRange := by
  rw [stoull, parseInteger_digits D hne hdig]
  dsimp only
  rw [Int.natAbs_natCast]
  split_ifs with hlt
  · have hmod : ((decimal D : ℤ) % 2 ^ 64).toNat = decimal D := by omega
    rw [hmod]
  · rfl

theorem sizeUnit_bounds (unit : Bytes) (mult : ℕ) (h : sizeUnit unit = some mult) : 0 < mult := by
  unfold sizeUnit at h
  split_ifs at h
  all_goals
    cases h
    decide

theorem product_fits (num mult : ℕ) (hpos : 0 < mult) (h : ¬ (2 ^ 64 - 1) / mult < num) :
    num * mult < 2 ^ 64 := by
  have hle : num * mult ≤ 2 ^ 64 - 1 := (Nat.le_div_iff_mul_le hpos).mp (Nat.not_lt.mp h)
  omega

/-- The exceptions of the library are all caught, and no product wraps. -/
theorem parseSizeThrowing_eq (raw : Bytes) (allowZero : Bool) :
    parseSizeThrowing raw allowZero = (parseSize raw allowZero).mapError .runtimeError := by
  unfold parseSizeThrowing parseSize
  dsimp only
  by_cases hempty : raw = []
  · rw [if_pos hempty, if_pos hempty]
    rfl
  rw [if_neg hempty, if_neg hempty]
  by_cases hdigits : raw.takeWhile isDigit = []
  · rw [if_pos (by rw [hdigits, List.length_nil]), if_pos hdigits]
    rfl
  rw [if_neg (fun h => hdigits (List.length_eq_zero_iff.mp h)), if_neg hdigits]
  have htake : raw.take (raw.takeWhile isDigit).length = raw.takeWhile isDigit :=
    (List.prefix_iff_eq_take.mp (List.takeWhile_prefix isDigit)).symm
  rw [htake, stoull_digits _ hdigits fun c hc => List.mem_takeWhile_imp hc]
  by_cases hrange : decimal (raw.takeWhile isDigit) < 2 ^ 64
  · rw [if_pos hrange, if_neg (by omega)]
    dsimp only [catchOutOfRange]
    split_ifs with hzero
    · rfl
    · cases hunit : sizeUnit ((trim (raw.drop (raw.takeWhile isDigit).length)).map toLower) with
      | none => rfl
      | some mult =>
        dsimp only
        split_ifs with hover
        · rfl
        · rw [Nat.mod_eq_of_lt (product_fits _ mult (sizeUnit_bounds _ mult hunit) hover)]
          rfl
  · rw [if_neg hrange, if_pos (by omega)]
    rfl

/-! ## What a size looks like -/

/-- The units and how often 1024 is taken. -/
def sizeUnits : List (Bytes × ℕ) := [([], 0), (ascii "b", 0), (ascii "kb", 1), (ascii "mb", 2), (ascii "gb", 3)]

/-- Digits, white space, a unit in any case, white space; the number of bytes fits into 64 bits. -/
def SizeText (s : Bytes) (allowZero : Bool) (v : ℕ) : Prop :=
  ∃ D W U W' k, s = D ++ (W ++ (U ++ W')) ∧ D ≠ [] ∧ (∀ c ∈ D, isDigit c = true) ∧ (∀ c ∈ W, isSpace c = true) ∧
    (∀ c ∈ W', isSpace c = true) ∧ (U.map toLower, k) ∈ sizeUnits ∧ v = decimal D * 1024 ^ k ∧ v < 2 ^ 64 ∧
    (0 < decimal D ∨ allowZero = true)

theorem sizeUnit_iff (unit : Bytes) (mult : ℕ) : sizeUnit unit = some mult ↔ ∃ k, (unit, k) ∈ sizeUnits ∧
    mult = 1024 ^ k := by
  constructor
  · intro h
    unfold sizeUnit at h
    split_ifs at h with h1 h2 h3 h4
    · cases h
      rcases h1 with rfl | rfl
      · exact ⟨0, by decide, rfl⟩
      · exact ⟨0, by decide, rfl⟩
    · cases h
      exact ⟨1, by rw [h2]; decide, rfl⟩
    · cases h
      exact ⟨2, by rw [h3]; decide, rfl⟩
    · cases h
      exact ⟨3, by rw [h4]; decide, rfl⟩
  · rintro ⟨k, hmem, rfl⟩
    simp only [sizeUnits, List.mem_cons, Prod.mk.injEq, List.not_mem_nil, or_false] at hmem
    rcases hmem with ⟨rfl, rfl⟩ | ⟨rfl, rfl⟩ | ⟨rfl, rfl⟩ | ⟨rfl, rfl⟩ | ⟨rfl, rfl⟩
    all_goals decide

theorem unit_bytes (U : Bytes) (k : ℕ) (h : (U.map toLower, k) ∈ sizeUnits) :
    ∀ c ∈ U, isDigit c = false ∧ isSpace c = false := by
  have hletters : ∀ p ∈ sizeUnits, ∀ c ∈ p.1, c ∈ ascii "bkmg" := by decide +kernel
  intro c hc
  have hlow := hletters _ h (toLower c) (List.mem_map_of_mem hc)
  exact forall_byte (fun c => toLower c ∈ ascii "bkmg" → isDigit c = false ∧ isSpace c = false)
    (by decide +kernel) c hlow

theorem isSpace_isDigit (c : UInt8) (h : isSpace c = true) : isDigit c = false :=
  forall_byte (fun c => isSpace c = true → isDigit c = false) (by decide +kernel) c h

theorem trim_around (W U W' : Bytes) (hW : ∀ c ∈ W, isSpace c = true) (hU : ∀ c ∈ U, isSpace c = false)
    (hW' : ∀ c ∈ W', isSpace c = true) : trim (W ++ (U ++ W')) = U := by
  have hback : (U ++ W').rdropWhile isSpace = U := by
    induction W' using List.reverseRecOn with
    | nil =>
      rw [List.append_nil, List.rdropWhile_eq_self_iff]
      intro hne
      rw [hU _ (List.getLast_mem hne)]
      exact Bool.false_ne_true
    | append_singleton W' c ih =>
      rw [← List.append_assoc, List.rdropWhile_concat_pos _ _ _ (hW' c (by simp))]
      exact ih fun d hd => hW' d (List.mem_append_left _ hd)
  rw [trim, List.dropWhile_append_of_pos hW]
  cases U with
  | nil =>
    rw [List.nil_append, List.dropWhile_eq_nil_iff.mpr hW']
    exact List.rdropWhile_nil _
  | cons c U =>
    rw [List.cons_append, List.dropWhile_cons_of_neg
      (by rw [hU c List.mem_cons_self]; exact Bool.false_ne_true), ← List.cons_append]
    exact hback

theorem takeWhile_number (D R : Bytes) (hD : ∀ c ∈ D, isDigit c = true) (hR : ∀ c ∈ R, isDigit c = false) :
    (D ++ R).takeWhile isDigit = D := by
  rw [List.takeWhile_append_of_pos hD]
  cases R with
  | nil => exact List.append_nil D
  | cons c R =>
    rw [List.takeWhile_cons_of_neg (by rw [hR c List.mem_cons_self]; exact Bool.false_ne_true), List.append_nil]

/-- The steps of `parseSize`, none of which refuses. -/
theorem parseSize_ok (s : Bytes) (allowZero : Bool) (v : ℕ) : parseSize s allowZero = .ok v ↔
    s.takeWhile isDigit ≠ [] ∧ (0 < decimal (s.takeWhile isDigit) ∨ allowZero = true) ∧
      ∃ mult, sizeUnit ((trim (s.drop (s.takeWhile isDigit).length)).map toLower) = some mult ∧
        v = decimal (s.takeWhile isDigit) * mult ∧ v < 2 ^ 64 := by
  unfold parseSize
  dsimp only
  by_cases hempty : s = []
  · rw [if_pos hempty, hempty]
    simp
  rw [if_neg hempty]
  by_cases hdigits : s.takeWhile isDigit = []
  · rw [if_pos hdigits]
    exact iff_of_false nofun fun h => h.1 hdigits
  rw [if_neg hdigits]
  by_cases hrange : 2 ^ 64 ≤ decimal (s.takeWhile isDigit)
  · rw [if_pos hrange]
    refine iff_of_false nofun ?_
    rintro ⟨-, -, mult, hunit, rfl, hlt⟩
    have hmul := Nat.le_mul_of_pos_right (decimal (s.takeWhile isDigit)) (sizeUnit_bounds _ mult hunit)
    omega
  rw [if_neg hrange]
  by_cases hzero : decimal (s.takeWhile isDigit) = 0 ∧ allowZero = false
  · rw [if_pos hzero]
    refine iff_of_false nofun ?_
    rintro ⟨-, hpos | htrue, -⟩
    · omega
    · rw [hzero.2] at htrue
      cases htrue
  rw [if_neg hzero]
  have hnonzero : 0 < decimal (s.takeWhile isDigit) ∨ allowZero = true := by
    cases allowZero with
    | true => exact .inr rfl
    | false => exact .inl (Nat.pos_of_ne_zero fun h => hzero ⟨h, rfl⟩)
  cases hunit : sizeUnit ((trim (s.drop (s.takeWhile isDigit).length)).map toLower) with
  | none => exact iff_of_false nofun (fun ⟨_, _, mult, h, _⟩ => by cases h)
  | some mult =>
    have hpos := sizeUnit_bounds _ mult hunit
    dsimp only
    by_cases hover : (2 ^ 64 - 1) / mult < decimal (s.takeWhile isDigit)
    · rw [if_pos hover]
      refine iff_of_false nofun ?_
      rintro ⟨-, -, mult', hsome, rfl, hlt⟩
      cases hsome
      have hle := (Nat.le_div_iff_mul_le hpos).mpr (Nat.le_sub_one_of_lt hlt)
      omega
    · rw [if_neg hover]
      constructor
      · intro h
        cases h
        exact ⟨hdigits, hnonzero, mult, rfl, rfl, product_fits _ mult hpos hover⟩
      · rintro ⟨-, -, mult', hsome, rfl, -⟩
        cases hsome
        rfl

theorem parseSize_iff (s : Bytes) (allowZero : Bool) (v : ℕ) :
    parseSize s allowZero = .ok v ↔ SizeText s allowZero v := by
  rw [parseSize_ok]
  constructor
  · rintro ⟨hne, hnonzero, mult, hunit, hv, hlt⟩
    obtain ⟨W, W', hsplit, hW, hW'⟩ := trim_split (s.drop (s.takeWhile isDigit).length)
    obtain ⟨k, hk, hmult⟩ := (sizeUnit_iff _ mult).mp hunit
    refine ⟨s.takeWhile isDigit, W, _, W', k, ?_, hne, fun c hc => List.mem_takeWhile_imp hc, hW, hW', hk,
      by rw [hv, hmult], hlt, hnonzero⟩
    rw [← hsplit]
    have htake : s.take (s.takeWhile isDigit).length = s.takeWhile isDigit :=
      (List.prefix_iff_eq_take.mp (List.takeWhile_prefix isDigit)).symm
    conv_lhs => rw [← List.take_append_drop (s.takeWhile isDigit).length s, htake]
  · rintro ⟨D, W, U, W', k, rfl, hne, hD, hW, hW', hk, hv, hlt, hnonzero⟩
    have hU := unit_bytes U k hk
    have hrest : ∀ c ∈ W ++ (U ++ W'), isDigit c = false := by
      intro c hc
      rcases List.mem_append.mp hc with hc | hc
      · exact isSpace_isDigit c (hW c hc)
      · rcases List.mem_append.mp hc with hc | hc
        · exact (hU c hc).1
        · exact isSpace_isDigit c (hW' c hc)
    rw [takeWhile_number D _ hD hrest, List.drop_left, trim_around W U W' hW (fun c hc => (hU c hc).2) hW']
    exact ⟨hne, hnonzero, 1024 ^ k, (sizeUnit_iff _ _).mpr ⟨k, hk, rfl⟩, hv, hlt⟩

/-- A size is returned exactly, or the text is none and the exception is a `std::runtime_error`. -/
theorem parseSize_exact (s : Bytes) (allowZero : Bool) :
    (∀ v, parseSizeThrowing s allowZero = .ok v ↔ SizeText s allowZero v) ∧
      ((∀ v, ¬ SizeText s allowZero v) → ∃ message,
        parseSizeThrowing s allowZero = .error (.runtimeError message)) := by
  rw [parseSizeThrowing_eq]
  cases h : parseSize s allowZero with
  | ok n =>
    refine ⟨fun v => ?_, fun hno => absurd ((parseSize_iff s allowZero n).mp h) (hno n)⟩
    rw [← parseSize_iff, h]
    change Except.ok n = Except.ok v ↔ _
    rw [Except.ok.injEq, Except.ok.injEq]
  | error message =>
    refine ⟨fun v => ?_, fun _ => ⟨message, rfl⟩⟩
    rw [← parseSize_iff, h]
    exact iff_of_false nofun nofun

/-- 2 ^ 64 bytes are refused, one unit less is not. -/
example : parseSize (ascii "17179869184GB") true =
    .error (ascii "Size too large: '17179869184GB' overflows 64 bits") ∧
    parseSize (ascii "17179869183 gB ") true = .ok (2 ^ 64 - 2 ^ 30) := by decide +kernel

end Minilog.Server
