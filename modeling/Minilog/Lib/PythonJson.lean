import Minilog.Lib.Python

/-! `json.loads` of a string of scalar values (`json.decoder`, `json.scanner`).

A scan returns what it read and what is left; `none` stands for an exception, whose text is left out. Two
escapes that form a surrogate pair are one character; any other escaped surrogate stays what it is. `float` is
the constructor of that name. -/
namespace Minilog.Lib.Python
set_option autoImplicit false

def isBlank (c : Char) : Bool := c = ' ' || c = '\t' || c = '\n' || c = '\r'

def skipBlank (s : List Char) : List Char := s.dropWhile isBlank

/-! ## Strings -/

def hexValue (c : Char) : Option ℕ :=
  if 0x30 ≤ c.toNat ∧ c.toNat ≤ 0x39 then some (c.toNat - 0x30)
  else if 0x41 ≤ c.toNat ∧ c.toNat ≤ 0x46 then some (c.toNat - 0x41 + 10)
  else if 0x61 ≤ c.toNat ∧ c.toNat ≤ 0x66 then some (c.toNat - 0x61 + 10)
  else none

/-- `_decode_uXXXX`. -/
def decodeUnit (s : List Char) : Option (ℕ × List Char) :=
  if s.length < 4 then none
  else ((s.take 4).mapM hexValue).map fun ds => (ds.foldl (fun n d => n * 16 + d) 0, s.drop 4)

/-- Behind a `\u`. -/
def scanUnicode (s : List Char) : Option (CodePoint × List Char) :=
  (decodeUnit s).bind fun high =>
    if 0xD800 ≤ high.1 ∧ high.1 ≤ 0xDBFF ∧ ['\\', 'u'].isPrefixOf high.2 then
      (decodeUnit (high.2.drop 2)).map fun low =>
        if 0xDC00 ≤ low.1 ∧ low.1 ≤ 0xDFFF then
          (chr (0x10000 + (high.1 - 0xD800) * 0x400 + (low.1 - 0xDC00)), low.2)
        else (chr high.1, high.2)
    else some (chr high.1, high.2)

/-- `BACKSLASH`. -/
def unescape (c : Char) : Option Char :=
  if c = '"' ∨ c = '\\' ∨ c = '/' then some c
  else if c = 'b' then some (Char.ofNat 0x08)
  else if c = 'f' then some (Char.ofNat 0x0C)
  else if c = 'n' then some '\n'
  else if c = 'r' then some '\r'
  else if c = 't' then some '\t'
  else none

/-- `scanstring`, behind the opening quote. -/
def scanString : ℕ → List Char → Option (Text × List Char)
  | 0, _ => none
  | _ + 1, [] => none
  | fuel + 1, c :: s =>
    if c = '"' then some ([], s)
    else if c = '\\' then
      if s.head? = some 'u' then
        (scanUnicode (s.drop 1)).bind fun u => (scanString fuel u.2).map fun r => (u.1 :: r.1, r.2)
      else
        (s.head?.bind unescape).bind fun e => (scanString fuel (s.drop 1)).map fun r =>
        (CodePoint.scalar e :: r.1, r.2)
    else if c.toNat ≤ 0x1F then none
    else (scanString fuel s).map fun r => (CodePoint.scalar c :: r.1, r.2)

/-! ## Numbers and literals -/

def isDigit (c : Char) : Bool := 0x30 ≤ c.toNat && c.toNat ≤ 0x39

/-- `sys.int_info.default_max_str_digits`. -/
def maxStrDigits : ℕ := 4300

/-- The fraction at the start of a text, if any. -/
def fraction (s : List Char) : List Char :=
  let digits := (s.drop 1).takeWhile isDigit
  if s.head? = some '.' ∧ digits ≠ [] then '.' :: digits else []

def exponent (s : List Char) : List Char :=
  let sign := (s.drop 1).take (if (s.drop 1).head? = some '-' ∨ (s.drop 1).head? = some '+' then 1 else 0)
  let digits := (s.drop (1 + sign.length)).takeWhile isDigit
  if (s.head? = some 'e' ∨ s.head? = some 'E') ∧ digits ≠ [] then s.take 1 ++ sign ++ digits else []

section Values

variable (float : List Char → FloatValue)

/-- `NUMBER_RE`. -/
def scanNumber (s : List Char) : Option (Value × List Char) :=
  let sign := s.take (if s.head? = some '-' then 1 else 0)
  let body := s.drop sign.length
  let digits := if body.head? = some '0' then ['0'] else body.takeWhile isDigit
  let frac := fraction (body.drop digits.length)
  let exp := exponent (body.drop (digits.length + frac.length))
  let rest := body.drop (digits.length + frac.length + exp.length)
  if digits = [] then none
  else if frac = [] ∧ exp = [] then
    if maxStrDigits < digits.length then none
    else
      let n : ℕ := digits.foldl (fun n d => n * 10 + (d.toNat - 0x30)) 0
      some (.int (if sign = [] then n else -n), rest)
  else some (.float (float (sign ++ digits ++ frac ++ exp)), rest)

def literals : List (List Char × Value) :=
  [("null".toList, .none), ("true".toList, .bool true), ("false".toList, .bool false),
    ("NaN".toList, .float (float "nan".toList)), ("Infinity".toList, .float (float "inf".toList)),
    ("-Infinity".toList, .float (float "-inf".toList))]

def scanAtom (s : List Char) : Option (Value × List Char) :=
  match (literals float).find? fun l => l.1.isPrefixOf s with
  | some l => some (l.2, s.drop l.1.length)
  | none => scanNumber float s

/-! ## Containers -/

/-- `d[key] = value`. -/
def setItem (entries : List (Text × Value)) (key : Text) (v : Value) : List (Text × Value) :=
  if entries.any fun e => e.1 = key then entries.map fun e => if e.1 = key then (key, v) else e
    else entries ++ [(key, v)]

mutual

/-- `scan_once`. -/
def scanOnce : ℕ → List Char → Option (Value × List Char)
  | 0, _ => none
  | fuel + 1, s =>
    if s.head? = some '"' then (scanString s.length (s.drop 1)).map fun r => (.str r.1, r.2)
    else if s.head? = some '\x7b' then
      let inner := skipBlank (s.drop 1)
      if inner.head? = some '\x7d' then some (.dict [], inner.drop 1) else scanMembers fuel inner []
    else if s.head? = some '[' then
      let inner := skipBlank (s.drop 1)
      if inner.head? = some ']' then some (.list [], inner.drop 1) else scanElements fuel inner []
    else scanAtom float s

/-- `JSONObject`, at a key. -/
def scanMembers : ℕ → List Char → List (Text × Value) → Option (Value × List Char)
  | 0, _, _ => none
  | fuel + 1, s, entries =>
    if s.head? ≠ some '"' then none
    else
      (scanString s.length (s.drop 1)).bind fun key =>
        let colon := skipBlank key.2
        if colon.head? ≠ some ':' then none
        else
          (scanOnce fuel (skipBlank (colon.drop 1))).bind fun v =>
            let next := skipBlank v.2
            if next.head? = some '\x7d' then some (.dict (setItem entries key.1 v.1), next.drop 1)
            else if next.head? = some ',' then scanMembers fuel (skipBlank (next.drop 1))
              (setItem entries key.1 v.1)
            else none

/-- `JSONArray`, at a value. -/
def scanElements : ℕ → List Char → List Value → Option (Value × List Char)
  | 0, _, _ => none
  | fuel + 1, s, elements =>
    (scanOnce fuel s).bind fun v =>
      let next := skipBlank v.2
      if next.head? = some ']' then some (.list (elements ++ [v.1]), next.drop 1)
      else if next.head? = some ',' then scanElements fuel (skipBlank (next.drop 1)) (elements ++ [v.1])
      else none

end

/-- `json.loads`. There are at most two scans for a character, so the fuel is enough. -/
def loads (s : List Char) : Except PyError Value :=
  let decoded := if s.head? = some (Char.ofNat 0xFEFF) then none else scanOnce float (2 * s.length + 1)
    (skipBlank s)
  match decoded.filter fun r => skipBlank r.2 = [] with
  | some r => .ok r.1
  | none => .error (.valueError [])

end Values

/-! ## Strings written as escapes -/

/-- The UTF-16 code units of a code point. -/
def CodePoint.units (c : CodePoint) : List ℕ :=
  if c.ord < 0x10000 then [c.ord] else [0xD800 + (c.ord - 0x10000) / 0x400, 0xDC00 + (c.ord - 0x10000) % 0x400]

def unitDigits (n : ℕ) : List Char :=
  [n / 0x1000, n / 0x100 % 0x10, n / 0x10 % 0x10, n % 0x10].map Nat.digitChar

def escapeUnit (n : ℕ) : List Char := '\\' :: 'u' :: unitDigits n

def escaped (t : Text) : List Char := t.flatMap fun c => c.units.flatMap escapeUnit

def CodePoint.isHigh : CodePoint → Bool
  | .scalar _ => false
  | .surrogate unit => unit.val < 0x400

def CodePoint.isLow : CodePoint → Bool
  | .scalar _ => false
  | .surrogate unit => 0x400 ≤ unit.val

/-- No high surrogate stands in front of a low one: the two would be read as one character. -/
def Unpaired : Text → Prop
  | [] => True
  | c :: t => (c.isHigh = true → ∀ d ∈ t.head?, d.isLow = false) ∧ Unpaired t

theorem hexValue_digitChar (d : ℕ) (h : d < 16) : hexValue (Nat.digitChar d) = some d := by
  have hall : ∀ d : Fin 16, hexValue (Nat.digitChar d) = some d.val := by decide
  exact hall ⟨d, h⟩

theorem decodeUnit_unitDigits (n : ℕ) (rest : List Char) (h : n < 0x10000) :
    decodeUnit (unitDigits n ++ rest) = some (n, rest) := by
  have hdigits : (unitDigits n).mapM hexValue = some [n / 0x1000, n / 0x100 % 0x10, n / 0x10 % 0x10,
      n % 0x10] := by
    simp [unitDigits, hexValue_digitChar, show n / 0x1000 < 16 by omega, Nat.mod_lt]
  have hlen : (unitDigits n).length = 4 := rfl
  have htake : (unitDigits n ++ rest).take 4 = unitDigits n := List.take_left' hlen
  have hdrop : (unitDigits n ++ rest).drop 4 = rest := List.drop_left' hlen
  rw [decodeUnit, if_neg (by rw [List.length_append, hlen]; omega), htake, hdigits, hdrop]
  simp only [Option.map_some, List.foldl_cons, List.foldl_nil, Option.some.injEq, Prod.mk.injEq, and_true]
  omega

theorem ord_lt (c : CodePoint) : c.ord < 0x110000 := by
  cases c with
  | scalar c => exact toNat_lt c
  | surrogate unit =>
    rw [CodePoint.ord_surrogate]
    omega

theorem chr_ord (c : CodePoint) : chr c.ord = c := by
  cases c with
  | scalar c =>
    have hvalid : c.toNat < 0xD800 ∨ 0xDFFF < c.toNat ∧ c.toNat < 0x110000 := c.valid
    rw [CodePoint.ord_scalar, chr, if_neg (by omega), Char.ofNat_toNat]
  | surrogate unit =>
    rw [CodePoint.ord_surrogate, chr, if_pos (by omega), Nat.add_sub_cancel_left, Fin.ofNat_val_eq_self]

theorem isHigh_of_ord (c : CodePoint) (h : 0xD800 ≤ c.ord) (h' : c.ord ≤ 0xDBFF) : c.isHigh = true := by
  cases c with
  | scalar c =>
    have hvalid : c.toNat < 0xD800 ∨ 0xDFFF < c.toNat ∧ c.toNat < 0x110000 := c.valid
    rw [CodePoint.ord_scalar] at h h'
    omega
  | surrogate unit =>
    rw [CodePoint.ord_surrogate] at h'
    exact decide_eq_true (by omega)

theorem isLow_of_ord (c : CodePoint) (h : 0xDC00 ≤ c.ord) (h' : c.ord ≤ 0xDFFF) : c.isLow = true := by
  cases c with
  | scalar c =>
    have hvalid : c.toNat < 0xD800 ∨ 0xDFFF < c.toNat ∧ c.toNat < 0x110000 := c.valid
    rw [CodePoint.ord_scalar] at h h'
    omega
  | surrogate unit =>
    rw [CodePoint.ord_surrogate] at h
    exact decide_eq_true (by omega)

/-- What follows a high surrogate and does not complete it. -/
def NotLow (tail : List Char) : Prop :=
  ['\\', 'u'].isPrefixOf tail = false ∨ ∃ n rest, tail = escapeUnit n ++ rest ∧ n < 0x10000 ∧
    ¬ (0xDC00 ≤ n ∧ n ≤ 0xDFFF)

/-- A code point is read back, unless it is the first half of a pair. -/
theorem scanUnicode_units (c : CodePoint) (tail : List Char) (h : c.isHigh = true → NotLow tail) :
    scanUnicode ((c.units.flatMap escapeUnit ++ tail).drop 2) = some (c, tail) := by
  have hlt := ord_lt c
  unfold CodePoint.units
  by_cases hone : c.ord < 0x10000
  · rw [if_pos hone, List.flatMap_singleton]
    change scanUnicode (unitDigits c.ord ++ tail) = _
    rw [scanUnicode, decodeUnit_unitDigits _ _ hone, Option.bind_some]
    dsimp only
    split_ifs with hpair
    · have hhigh := isHigh_of_ord c hpair.1 hpair.2.1
      rcases h hhigh with hno | ⟨n, rest, rfl, hn, hlow⟩
      · rw [hno] at hpair
        exact absurd hpair.2.2 Bool.false_ne_true
      · change (decodeUnit (unitDigits n ++ rest)).map _ = _
        rw [decodeUnit_unitDigits _ _ hn, Option.map_some, if_neg hlow, chr_ord]
    · rw [chr_ord]
  · rw [if_neg hone]
    change scanUnicode (unitDigits (0xD800 + (c.ord - 0x10000) / 0x400) ++
      (escapeUnit (0xDC00 + (c.ord - 0x10000) % 0x400) ++ tail)) = _
    rw [scanUnicode, decodeUnit_unitDigits _ _ (by omega), Option.bind_some, if_pos ⟨by omega, by omega, rfl⟩]
    change (decodeUnit (unitDigits _ ++ tail)).map _ = _
    rw [decodeUnit_unitDigits _ _ (by omega), Option.map_some, if_pos (by omega)]
    have hsum : 0x10000 + (0xD800 + (c.ord - 0x10000) / 0x400 - 0xD800) * 0x400 +
        (0xDC00 + (c.ord - 0x10000) % 0x400 - 0xDC00) = c.ord := by
      omega
    rw [hsum, chr_ord]

/-- The first unit of a code point that is no low surrogate. -/
theorem notLow_units (c : CodePoint) (tail : List Char) (h : c.isLow = false) :
    NotLow (c.units.flatMap escapeUnit ++ tail) := by
  have hlt := ord_lt c
  unfold CodePoint.units
  by_cases hone : c.ord < 0x10000
  · rw [if_pos hone, List.flatMap_singleton]
    refine .inr ⟨c.ord, tail, rfl, hone, fun hlow => ?_⟩
    rw [isLow_of_ord c hlow.1 hlow.2] at h
    cases h
  · rw [if_neg hone, List.flatMap_cons, List.append_assoc]
    exact .inr ⟨_, _, rfl, by omega, by omega⟩

theorem notLow_escaped (t : Text) (rest : List Char) (h : ∀ d ∈ t.head?, d.isLow = false) :
    NotLow (escaped t ++ '"' :: rest) := by
  cases t with
  | nil => exact .inl rfl
  | cons d t =>
    rw [escaped, List.flatMap_cons, List.append_assoc]
    exact notLow_units d _ (h d rfl)

/-- Every string without a split pair is read back from its escapes, surrogates included. -/
theorem scanString_escaped (fuel : ℕ) (t : Text) (rest : List Char) (ht : Unpaired t)
    (hfuel : t.length < fuel) :
    scanString fuel (escaped t ++ '"' :: rest) = some (t, rest) := by
  induction t generalizing fuel with
  | nil =>
    cases fuel with
    | zero => cases hfuel
    | succ fuel => rfl
  | cons c t ih =>
    cases fuel with
    | zero => cases hfuel
    | succ fuel =>
      have hunicode := scanUnicode_units c (escaped t ++ '"' :: rest) fun hhigh =>
        notLow_escaped t rest (ht.1 hhigh)
      have hsplit : ∃ more, c.units.flatMap escapeUnit ++ (escaped t ++ '"' :: rest) = '\\' :: 'u' :: more := by
        unfold CodePoint.units
        split_ifs
        · exact ⟨_, rfl⟩
        · exact ⟨_, rfl⟩
      obtain ⟨more, hmore⟩ := hsplit
      rw [hmore] at hunicode
      have htail := ih fuel ht.2 (Nat.lt_of_succ_lt_succ hfuel)
      rw [escaped, List.flatMap_cons, List.append_assoc]
      change scanString (fuel + 1) (c.units.flatMap escapeUnit ++ (escaped t ++ '"' :: rest)) = _
      rw [hmore, scanString, if_neg (by decide), if_pos rfl, if_pos List.head?_cons]
      change (scanUnicode more).bind _ = _
      rw [show scanUnicode more = some (c, escaped t ++ '"' :: rest) from hunicode, Option.bind_some, htail,
        Option.map_some]

/-- A character that stands for itself. -/
def isPlain (c : Char) : Bool := c ≠ '"' && c ≠ '\\' && 0x1F < c.toNat

theorem scanString_plain (fuel : ℕ) (cs rest : List Char) (hcs : cs.all isPlain = true)
    (hfuel : cs.length < fuel) :
    scanString fuel (cs ++ '"' :: rest) = some (text cs, rest) := by
  induction cs generalizing fuel with
  | nil =>
    cases fuel with
    | zero => cases hfuel
    | succ fuel => rfl
  | cons c cs ih =>
    cases fuel with
    | zero => cases hfuel
    | succ fuel =>
      rw [List.all_cons, Bool.and_eq_true] at hcs
      obtain ⟨hplain, hall⟩ := hcs
      unfold isPlain at hplain
      simp only [Bool.and_eq_true, decide_eq_true_eq] at hplain
      obtain ⟨⟨hquote, hslash⟩, hcontrol⟩ := hplain
      rw [List.cons_append, scanString, if_neg hquote, if_neg hslash, if_neg (Nat.not_le.mpr hcontrol),
        ih fuel hall (Nat.lt_of_succ_lt_succ hfuel), Option.map_some]
      rfl

/-- `{"key":"text"}`, the text in escapes. -/
def objectLine (key : List Char) (t : Text) : List Char :=
  '\x7b' :: '"' :: (key ++ '"' :: ':' :: '"' :: (escaped t ++ ['"', '\x7d']))

theorem length_le_escaped (t : Text) : t.length ≤ (escaped t).length := by
  induction t with
  | nil => exact Nat.le_refl 0
  | cons c t ih =>
    have hone : 1 ≤ (c.units.flatMap escapeUnit).length := by
      unfold CodePoint.units
      split_ifs
      · exact Nat.succ_le_succ (Nat.zero_le _)
      · exact Nat.succ_le_succ (Nat.zero_le _)
    rw [escaped, List.flatMap_cons, List.length_append, List.length_cons]
    unfold escaped at ih
    omega

theorem loads_objectLine (float : List Char → FloatValue) (key : List Char) (t : Text)
    (hkey : key.all isPlain = true) (ht : Unpaired t) :
    loads float (objectLine key t) = .ok (.dict [(text key, .str t)]) := by
  have hlen := length_le_escaped t
  obtain ⟨fuel, hfuel⟩ : ∃ fuel, 2 * (objectLine key t).length + 1 = fuel + 3 :=
    ⟨2 * (objectLine key t).length - 2, by rw [objectLine, List.length_cons, List.length_cons]; omega⟩
  have hvalue : scanOnce float (fuel + 1) ('"' :: (escaped t ++ ['"', '\x7d'])) = some (.str t, ['\x7d']) := by
    rw [scanOnce, if_pos List.head?_cons]
    change (scanString _ (escaped t ++ '"' :: ['\x7d'])).map _ = _
    rw [scanString_escaped _ t _ ht (by rw [List.length_cons, List.length_append]; omega), Option.map_some]
  have hmembers : scanMembers float (fuel + 2)
      ('"' :: (key ++ '"' :: ':' :: '"' :: (escaped t ++ ['"', '\x7d']))) [] =
        some (.dict [(text key, .str t)], []) := by
    rw [scanMembers, if_neg (by rw [List.head?_cons]; exact fun h => h rfl)]
    change (scanString _ (key ++ '"' :: ':' :: '"' :: (escaped t ++ ['"', '\x7d']))).bind _ = _
    rw [scanString_plain _ key _ hkey (by rw [List.length_cons, List.length_append]; omega), Option.bind_some]
    change (scanOnce float (fuel + 1) ('"' :: (escaped t ++ ['"', '\x7d']))).bind _ = _
    rw [hvalue]
    rfl
  have hstart : scanOnce float (fuel + 3) (objectLine key t) = some (.dict [(text key, .str t)], []) := by
    rw [objectLine, scanOnce, if_neg (by rw [List.head?_cons]; decide), if_pos List.head?_cons]
    exact hmembers
  have hblank : skipBlank (objectLine key t) = objectLine key t := rfl
  have hbom : (objectLine key t).head? ≠ some (Char.ofNat 0xFEFF) := by
    rw [objectLine, List.head?_cons]
    decide
  rw [loads, if_neg hbom, hblank, hfuel, hstart]
  rfl

end Minilog.Lib.Python
