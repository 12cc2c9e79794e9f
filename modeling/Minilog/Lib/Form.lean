import Minilog.Lib.Runes

/-! Texts of separated parts, and form-encoded queries.

`splitOn` undoes `joinWith` when no part holds the separator. `queryText` writes name-value pairs as a browser
does and `parseQuery` reads a query as Go's `net/url` does: pieces that cannot be unescaped are left out. -/
namespace Minilog.Lib
set_option autoImplicit false

/-! ## Separated parts -/

def joinWith (sep : UInt8) : List Bytes → Bytes
  | [] => []
  | [p] => p
  | p :: q :: ps => p ++ [sep] ++ joinWith sep (q :: ps)

def splitOn (sep : UInt8) : Bytes → List Bytes
  | [] => [[]]
  | c :: s =>
    if c = sep then [] :: splitOn sep s
    else
      match splitOn sep s with
      | [] => [[c]]
      | p :: ps => (c :: p) :: ps

theorem splitOn_plain (sep : UInt8) (p : Bytes) (hp : sep ∉ p) : splitOn sep p = [p] := by
  induction p with
  | nil => rfl
  | cons c p ih =>
    simp only [List.mem_cons, not_or] at hp
    rw [splitOn, if_neg (Ne.symm hp.1), ih hp.2]

theorem splitOn_append (sep : UInt8) (p s : Bytes) (hp : sep ∉ p) :
    splitOn sep (p ++ sep :: s) = p :: splitOn sep s := by
  induction p with
  | nil => rw [List.nil_append, splitOn, if_pos rfl]
  | cons c p ih =>
    simp only [List.mem_cons, not_or] at hp
    rw [List.cons_append, splitOn, if_neg (Ne.symm hp.1), ih hp.2]

theorem splitOn_joinWith (sep : UInt8) (ps : List Bytes) (hne : ps ≠ []) (h : ∀ p ∈ ps, sep ∉ p) :
    splitOn sep (joinWith sep ps) = ps := by
  fun_induction joinWith sep ps with
  | case1 => exact absurd rfl hne
  | case2 p => exact splitOn_plain sep p (h p List.mem_cons_self)
  | case3 p q ps ih =>
    rw [List.append_assoc, List.singleton_append, splitOn_append sep p _ (h p List.mem_cons_self),
      ih (List.cons_ne_nil q ps) fun r hr => h r (List.mem_cons_of_mem p hr)]

theorem joinWith_ne_nil (sep : UInt8) (ps : List Bytes) (hne : ps ≠ []) (h : ∀ p ∈ ps, p ≠ []) :
    joinWith sep ps ≠ [] := by
  fun_cases joinWith sep ps with
  | case1 => exact absurd rfl hne
  | case2 p => exact h p List.mem_cons_self
  | case3 p q ps =>
    intro hnil
    have := (List.append_eq_nil_iff.mp hnil).1
    exact absurd (List.append_eq_nil_iff.mp this).2 (by simp)

/-- What stands in front of the first separator and behind it. -/
def cut (sep : UInt8) (s : Bytes) : Bytes × Bytes := (s.takeWhile (· ≠ sep), (s.dropWhile (· ≠ sep)).drop 1)

theorem cut_append (sep : UInt8) (p s : Bytes) (hp : sep ∉ p) : cut sep (p ++ sep :: s) = (p, s) := by
  have hall : ∀ c ∈ p, decide (c ≠ sep) = true := by
    intro c hc
    exact decide_eq_true fun h => hp (h ▸ hc)
  unfold cut
  rw [List.takeWhile_append_of_pos hall, List.dropWhile_append_of_pos hall,
    List.takeWhile_cons_of_neg (by simp), List.dropWhile_cons_of_neg (by simp), List.append_nil]
  rfl

/-! ## Form encoding -/

/-- The bytes a form encoding leaves alone. -/
def isFormPlain (c : UInt8) : Bool :=
  (0x30 ≤ c && c ≤ 0x39) || (0x41 ≤ c && c ≤ 0x5A) || (0x61 ≤ c && c ≤ 0x7A) || c == 0x2A || c == 0x2D ||
    c == 0x2E || c == 0x5F

def hexDigit (d : UInt8) : UInt8 := if d < 10 then 0x30 + d else 0x37 + d

def formByte (c : UInt8) : Bytes :=
  if isFormPlain c then [c]
  else if c = 0x20 then [0x2B]
  else [0x25, hexDigit (c / 16), hexDigit (c % 16)]

def formText (s : Bytes) : Bytes := s.flatMap formByte

/-- `URLSearchParams.toString()`. -/
def queryText (pairs : List (Bytes × Bytes)) : Bytes :=
  joinWith 0x26 (pairs.map fun p => formText p.1 ++ [0x3D] ++ formText p.2)

def hexValue (c : UInt8) : Option UInt8 :=
  if 0x30 ≤ c && c ≤ 0x39 then some (c - 0x30)
  else if 0x41 ≤ c && c ≤ 0x46 then some (c - 0x37)
  else if 0x61 ≤ c && c ≤ 0x66 then some (c - 0x57)
  else none

/-- `url.QueryUnescape`; `none` is its error. -/
def queryUnescape : Bytes → Option Bytes
  | [] => some []
  | c :: s =>
    if c = 0x25 then
      match s with
      | hi :: lo :: rest =>
        match hexValue hi, hexValue lo with
        | some a, some b => (queryUnescape rest).map ((a * 16 + b) :: ·)
        | _, _ => none
      | _ => none
    else if c = 0x2B then (queryUnescape s).map (0x20 :: ·)
    else (queryUnescape s).map (c :: ·)

/-- One piece of a query: left out if it is empty, holds a semicolon or cannot be unescaped. -/
def parsePair (piece : Bytes) : Option (Bytes × Bytes) :=
  if piece = [] ∨ 0x3B ∈ piece then none
  else
    let (key, value) := cut 0x3D piece
    match queryUnescape key, queryUnescape value with
    | some k, some v => some (k, v)
    | _, _ => none

/-- `url.ParseQuery`, the pairs in their order. -/
def parseQuery (query : Bytes) : List (Bytes × Bytes) := (splitOn 0x26 query).filterMap parsePair

/-- `Values.Get`. -/
def getParam (pairs : List (Bytes × Bytes)) (key : Bytes) : Bytes := (pairs.lookup key).getD []

/-- `Values[key]`. -/
def allParams (pairs : List (Bytes × Bytes)) (key : Bytes) : List Bytes :=
  (pairs.filter fun p => p.1 == key).map Prod.snd

theorem queryUnescape_other (c : UInt8) (s : Bytes) (hc : c ≠ 0x25) :
    queryUnescape (c :: s) = if c = 0x2B then (queryUnescape s).map (0x20 :: ·)
    else (queryUnescape s).map (c :: ·) := by
  conv_lhs => unfold queryUnescape
  rw [if_neg hc]

/-- A byte is read back as it was written. -/
theorem queryUnescape_formByte (c : UInt8) (s : Bytes) :
    queryUnescape (formByte c ++ s) = (queryUnescape s).map (c :: ·) := by
  have hplain := forall_byte (fun c => isFormPlain c = true → c ≠ 0x25 ∧ c ≠ 0x2B) (by decide +kernel) c
  have hhex := forall_byte (fun c => hexValue (hexDigit (c / 16)) = some (c / 16) ∧
    hexValue (hexDigit (c % 16)) = some (c % 16) ∧
    c / 16 * 16 + c % 16 = c) (by decide +kernel) c
  unfold formByte
  split_ifs with h1 h2
  · obtain ⟨h3, h4⟩ := hplain h1
    rw [List.singleton_append, queryUnescape_other c s h3, if_neg h4]
  · rw [List.singleton_append, queryUnescape_other _ s (by decide), if_pos rfl, h2]
  · rw [List.cons_append, List.cons_append, List.cons_append, List.nil_append, queryUnescape, if_pos rfl]
    simp only [hhex.1, hhex.2.1, hhex.2.2]

theorem queryUnescape_formText (s : Bytes) : queryUnescape (formText s) = some s := by
  induction s with
  | nil => rfl
  | cons c s ih =>
    rw [formText, List.flatMap_cons, queryUnescape_formByte, ← formText, ih]
    rfl

/-- The separators of a query do not occur in an encoded text. -/
theorem formText_clean (s : Bytes) (q : UInt8) (hq : q = 0x26 ∨ q = 0x3D ∨ q = 0x3B) : q ∉ formText s := by
  have hbyte := forall_byte (fun c => (0x26 : UInt8) ∉ formByte c ∧ (0x3D : UInt8) ∉ formByte c ∧
    (0x3B : UInt8) ∉ formByte c) (by decide +kernel)
  intro h
  obtain ⟨c, -, hc⟩ := List.mem_flatMap.mp h
  obtain rfl | rfl | rfl := hq
  · exact (hbyte c).1 hc
  · exact (hbyte c).2.1 hc
  · exact (hbyte c).2.2 hc

theorem parsePair_formText (k v : Bytes) : parsePair (formText k ++ [0x3D] ++ formText v) = some (k, v) := by
  have hne : ¬ (formText k ++ [0x3D] ++ formText v = [] ∨ (0x3B : UInt8) ∈ formText k ++ [0x3D] ++
      formText v) := by
    intro h
    cases h with
    | inl h => exact absurd (List.append_eq_nil_iff.mp (List.append_eq_nil_iff.mp h).1).2 (by simp)
    | inr h =>
      simp only [List.mem_append, List.mem_singleton] at h
      obtain (h | h) | h := h
      · exact formText_clean k _ (.inr (.inr rfl)) h
      · exact absurd h (by decide)
      · exact formText_clean v _ (.inr (.inr rfl)) h
  unfold parsePair
  rw [if_neg hne, List.append_assoc, List.singleton_append,
    cut_append _ _ _ (formText_clean k _ (.inr (.inl rfl)))]
  simp only [queryUnescape_formText]

/-- A query is read back as it was written. -/
theorem parseQuery_queryText (pairs : List (Bytes × Bytes)) (hne : pairs ≠ []) :
    parseQuery (queryText pairs) = pairs := by
  have hclean : ∀ piece ∈ pairs.map fun p => formText p.1 ++ [0x3D] ++ formText p.2,
      (0x26 : UInt8) ∉ piece := by
    intro piece hpiece
    obtain ⟨p, -, rfl⟩ := List.mem_map.mp hpiece
    intro h
    simp only [List.mem_append, List.mem_singleton] at h
    obtain (h | h) | h := h
    · exact formText_clean p.1 _ (.inl rfl) h
    · exact absurd h (by decide)
    · exact formText_clean p.2 _ (.inl rfl) h
  unfold parseQuery queryText
  rw [splitOn_joinWith _ _ (fun h => hne (List.map_eq_nil_iff.mp h)) hclean, List.filterMap_map]
  have hpair : (parsePair ∘ fun p : Bytes × Bytes => formText p.1 ++ [0x3D] ++ formText p.2) = some := by
    funext p
    exact parsePair_formText p.1 p.2
  rw [hpair, List.filterMap_some]

/-! ## White space -/

/-- `unicode.IsSpace`. -/
def isSpaceRune (r : ℕ) : Bool :=
  (9 ≤ r && r ≤ 13) || r == 0x20 || r == 0x85 || r == 0xA0 || r == 0x1680 || (0x2000 ≤ r && r ≤ 0x200A) ||
    r == 0x2028 || r == 0x2029 || r == 0x202F || r == 0x205F || r == 0x3000

/-- Nothing but white space, behind `skip` bytes of a rune already seen. -/
def allSpace : ℕ → Bytes → Bool
  | _, [] => true
  | skip + 1, _ :: s => allSpace skip s
  | 0, c :: s => isSpaceRune (decodeRune (c :: s)).1 && allSpace ((decodeRune (c :: s)).2 - 1) s

def trimLeft : ℕ → Bytes → Bytes
  | _, [] => []
  | skip + 1, _ :: s => trimLeft skip s
  | 0, c :: s =>
    if isSpaceRune (decodeRune (c :: s)).1 then trimLeft ((decodeRune (c :: s)).2 - 1) s else c :: s

def trimRight : Bytes → Bytes
  | [] => []
  | c :: s => if allSpace 0 (c :: s) then [] else c :: trimRight s

/-- `strings.TrimSpace`. -/
def trimSpace (s : Bytes) : Bytes := trimLeft 0 (trimRight s)

/-- A text of visible ASCII bytes has nothing to trim. -/
theorem trimSpace_visible (s : Bytes) (h : ∀ c ∈ s, 0x21 ≤ c ∧ c < 0x80) : trimSpace s = s := by
  have hbyte : ∀ c : UInt8, 0x21 ≤ c ∧ c < 0x80 → ∀ t, isSpaceRune (decodeRune (c :: t)).1 = false := by
    intro c hc t
    rw [decodeRune_ascii c t hc.2]
    exact forall_byte (fun c => 0x21 ≤ c ∧ c < 0x80 → isSpaceRune c.toNat = false) (by decide +kernel) c hc
  have hright : trimRight s = s := by
    induction s with
    | nil => rfl
    | cons c s ih =>
      have hc := hbyte c (h c List.mem_cons_self) s
      rw [trimRight, allSpace, hc, Bool.false_and, if_neg (by decide),
        ih fun d hd => h d (List.mem_cons_of_mem c hd)]
  unfold trimSpace
  rw [hright]
  cases s with
  | nil => rfl
  | cons c s => rw [trimLeft, hbyte c (h c List.mem_cons_self) s, if_neg (by decide)]

end Minilog.Lib
