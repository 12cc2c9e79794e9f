import Minilog.Lib.Checked
import Minilog.Lib.Form

/-! Python's `configparser.ConfigParser` with its defaults, reading one file.

A string is the UTF-8 text of its characters, and the file is decoded as UTF-8: `config.read` is called
without an encoding, so this is Python where the locale's encoding is UTF-8. A line that is indented deeper
than the option above it goes on with its value; an option ends at the first `=` or `:` and is put into lower
case by `lower`; a section or an option that comes twice is an error. `get` expands the references of a value
(`BasicInterpolation`). The exceptions are values of `ConfigError`, without line numbers. -/
namespace Minilog.Lib.ConfigParser
set_option autoImplicit false

inductive ConfigError where
  | unicodeDecode
  | missingSectionHeader (line : Bytes)
  | duplicateSection (sec : Bytes)
  | duplicateOption (sec option : Bytes)
  | parsing (lines : List Bytes)
  | noOption (sec option : Bytes)
  | interpolationSyntax (rest : Bytes)
  | interpolationMissingOption (reference : Bytes)
  | interpolationDepth
deriving DecidableEq

/-! ## Strings -/

/-- `str.isspace` of one character. -/
def isSpaceChar (r : ℕ) : Bool := isSpaceRune r || (0x1C ≤ r && r ≤ 0x1F)

/-- Nothing but white space, behind `skip` bytes of a character already seen. -/
def allBlank : ℕ → Bytes → Bool
  | _, [] => true
  | skip + 1, _ :: s => allBlank skip s
  | 0, c :: s => isSpaceChar (decodeRune (c :: s)).1 && allBlank ((decodeRune (c :: s)).2 - 1) s

def lstripFrom : ℕ → Bytes → Bytes
  | _, [] => []
  | skip + 1, _ :: s => lstripFrom skip s
  | 0, c :: s =>
    if isSpaceChar (decodeRune (c :: s)).1 then lstripFrom ((decodeRune (c :: s)).2 - 1) s else c :: s

def lstrip (s : Bytes) : Bytes := lstripFrom 0 s

def rstrip : Bytes → Bytes
  | [] => []
  | c :: s => if allBlank 0 (c :: s) then [] else c :: rstrip s

def strip (s : Bytes) : Bytes := lstrip (rstrip s)

/-- The number of characters in front of the first that is no white space. -/
def indentFrom : ℕ → Bytes → ℕ
  | _, [] => 0
  | skip + 1, _ :: s => indentFrom skip s
  | 0, c :: s =>
    if isSpaceChar (decodeRune (c :: s)).1 then indentFrom ((decodeRune (c :: s)).2 - 1) s + 1 else 0

def indent (line : Bytes) : ℕ := indentFrom 0 line

def isUtf8From : ℕ → Bytes → Bool
  | _, [] => true
  | skip + 1, _ :: s => isUtf8From skip s
  | 0, c :: s => decide (decodeRune (c :: s) ≠ (runeError, 1)) && isUtf8From ((decodeRune (c :: s)).2 - 1) s

def isUtf8 (text : Bytes) : Bool := isUtf8From 0 text

/-- What a file opened in text mode does to CR and CR LF. -/
def universalNewlines : Bytes → Bytes
  | [] => []
  | [c] => if c = cr then [lf] else [c]
  | c :: d :: s =>
    if c = cr then (if d = lf then lf :: universalNewlines s else lf :: universalNewlines (d :: s))
    else c :: universalNewlines (d :: s)

def textLines (text : Bytes) : List Bytes := scanLines (universalNewlines text)

/-! ## Reading -/

/-- `SECTCRE`: up to the last bracket of the line. -/
def sectcre : Bytes → Option Bytes
  | [] => none
  | c :: rest =>
    let header := (rest.rdropWhile (· ≠ 0x5D)).dropLast
    if c = 0x5B ∧ header ≠ [] then some header else none

def isDelimiter (c : UInt8) : Bool := c == 0x3D || c == 0x3A

/-- `OPTCRE`: the name and the value. -/
def optcre (line : Bytes) : Option (Bytes × Bytes) :=
  match line.dropWhile fun c => !isDelimiter c with
  | [] => none
  | _ :: value => some (rstrip (line.takeWhile fun c => !isDelimiter c), lstrip value)

def defaultSection : Bytes := ascii "DEFAULT"

theorem sectcre_none (line : Bytes) (h : line.head? ≠ some 0x5B) : sectcre line = none := by
  cases line with
  | nil => rfl
  | cons c rest => exact if_neg fun hc => h (by rw [hc.1, List.head?_cons])

/-- The variables of `_read`. The options of all sections are in one list; their names there are
`elements_added`. No option (`optname` is `None`) is an empty name, as both are false. -/
structure Reader where
  sections : List Bytes := []
  options : List ((Bytes × Bytes) × List Bytes) := []
  cursect : Option Bytes := none
  optname : Bytes := []
  indentLevel : ℕ := 0
  bogus : List Bytes := []
deriving DecidableEq

def Reader.append (r : Reader) (value : Bytes) : Reader :=
  match r.cursect with
  | none => r
  | some sec =>
    if r.optname = [] then r
    else { r with options := r.options.map fun p => if p.1 = (sec, r.optname) then (p.1, p.2 ++ [value])
      else p }

def Reader.header (r : Reader) (name : Bytes) : Except ConfigError Reader :=
  if name ∈ r.sections then .error (.duplicateSection name)
  else
    .ok { r with
      sections := if name = defaultSection then r.sections else r.sections ++ [name]
      cursect := some name
      optname := [] }

variable (lower : Bytes → Bytes)

def Reader.option (r : Reader) (sec line : Bytes) : Except ConfigError Reader :=
  match optcre line with
  | none => .ok { r with bogus := r.bogus ++ [line] }
  | some (name, value) =>
    if (sec, lower name) ∈ r.options.map Prod.fst then .error (.duplicateOption sec (lower name))
    else
      .ok { r with
        options := r.options ++ [((sec, lower name), [strip value])]
        optname := lower name
        bogus := if name = [] then r.bogus ++ [line] else r.bogus }

/-- `;` or `#` in front. -/
def isComment (line : Bytes) : Bool := line.head? == some 0x3B || line.head? == some 0x23

/-- The body of the loop. -/
def Reader.line (r : Reader) (line : Bytes) : Except ConfigError Reader :=
  let value := strip line
  if isComment value then .ok r
  else if value = [] then .ok (r.append [])
  else if r.cursect ≠ none ∧ r.optname ≠ [] ∧ r.indentLevel < indent line then .ok (r.append value)
  else
    match sectcre value with
    | some name => Reader.header { r with indentLevel := indent line } name
    | none =>
      match r.cursect with
      | none => .error (.missingSectionHeader line)
      | some sec => Reader.option lower { r with indentLevel := indent line } sec value

def readLines (r : Reader) : List Bytes → Except ConfigError Reader
  | [] => .ok r
  | line :: rest => do
    let r ← r.line lower line
    readLines r rest

def read (text : Bytes) : Except ConfigError Reader :=
  if isUtf8 text then do
    let r ← readLines lower {} (textLines text)
    if r.bogus = [] then .ok r else .error (.parsing r.bogus)
  else .error .unicodeDecode

/-! ## Values -/

/-- `_join_multiline_values`. -/
def joined (lines : List Bytes) : Bytes := rstrip (joinWith lf lines)

/-- The section, with the defaults behind it. -/
def Reader.raw (r : Reader) (sec name : Bytes) : Option Bytes :=
  ((r.options.lookup (sec, name)).or (r.options.lookup (defaultSection, name))).map joined

abbrev percent : UInt8 := 0x25

/-- `_KEYCRE`, behind the opening parenthesis: the name and what follows the reference. -/
def reference (s : Bytes) : Option (Bytes × Bytes) :=
  let name := s.takeWhile (· ≠ 0x29)
  match s.drop name.length with
  | 0x29 :: 0x73 :: rest => if name = [] then none else some (name, rest)
  | _ => none

/-- The loop of `_interpolate_some`; `nested` is the call for a value with references of its own, and `fuel`
the length of what is left. -/
def expand (vars : Bytes → Option Bytes) (nested : Bytes → Except ConfigError Bytes) :
    ℕ → Bytes → Except ConfigError Bytes
  | 0, _ => .ok []
  | _ + 1, [] => .ok []
  | fuel + 1, c :: rest =>
    if c ≠ percent then do
      let more ← expand vars nested fuel rest
      return c :: more
    else
      match rest with
      | 0x25 :: rest => do
        let more ← expand vars nested fuel rest
        return percent :: more
      | 0x28 :: rest =>
        match reference rest with
        | none => .error (.interpolationSyntax (c :: 0x28 :: rest))
        | some (name, rest) =>
          match vars (lower name) with
          | none => .error (.interpolationMissingOption (lower name))
          | some value => do
            let front ← if percent ∈ value then nested value else .ok value
            let more ← expand vars nested fuel rest
            return front ++ more
      | rest => .error (.interpolationSyntax (c :: rest))

/-- `_interpolate_some` with so many levels left. -/
def interpolateSome (vars : Bytes → Option Bytes) : ℕ → Bytes → Except ConfigError Bytes
  | 0, _ => .error .interpolationDepth
  | levels + 1, rest => expand lower vars (interpolateSome vars levels) rest.length rest

def maxInterpolationDepth : ℕ := 10

def Reader.get (r : Reader) (sec option : Bytes) : Except ConfigError Bytes :=
  match r.raw sec (lower option) with
  | none => .error (.noOption sec option)
  | some value => interpolateSome lower (r.raw sec) maxInterpolationDepth value

/-! ## White space at the ends -/

/-- A visible ASCII byte. -/
def Visible (c : UInt8) : Prop := 0x21 ≤ c ∧ c < 0x7F

/-- An ASCII byte that is white space. -/
def AsciiBlank (c : UInt8) : Prop := c < 0x80 ∧ isSpaceChar c.toNat = true

theorem decodeRune_visible (c : UInt8) (s : Bytes) (hc : Visible c) :
    isSpaceChar (decodeRune (c :: s)).1 = false := by
  have hlt : c < 0x80 := UInt8.lt_trans hc.2 (by decide)
  rw [decodeRune_ascii c s hlt]
  exact forall_byte (fun c => Visible c → isSpaceChar c.toNat = false) (by unfold Visible; decide +kernel) c hc

theorem allBlank_visible (c : UInt8) (s : Bytes) (hc : Visible c) : allBlank 0 (c :: s) = false := by
  rw [allBlank, decodeRune_visible c s hc, Bool.false_and]

theorem allBlank_ascii (w : Bytes) (hw : ∀ c ∈ w, AsciiBlank c) : allBlank 0 w = true := by
  induction w with
  | nil => rfl
  | cons c w ih =>
    obtain ⟨hlt, hspace⟩ := hw c List.mem_cons_self
    rw [allBlank, decodeRune_ascii c w hlt, hspace, Bool.true_and]
    exact ih fun d hd => hw d (List.mem_cons_of_mem c hd)

/-- ASCII white space behind a text that ends in a whole character. -/
theorem allBlank_append (skip : ℕ) (a w : Bytes) (hskip : skip ≤ a.length) (hw : ∀ c ∈ w, AsciiBlank c) :
    allBlank skip (a ++ w) = allBlank skip a := by
  induction a generalizing skip with
  | nil =>
    cases Nat.le_zero.mp hskip
    rw [List.nil_append, allBlank_ascii w hw]
    rfl
  | cons c a ih =>
    cases skip with
    | succ skip =>
      rw [List.cons_append, allBlank, allBlank]
      exact ih skip (Nat.le_of_succ_le_succ hskip)
    | zero =>
      have hsame : decodeRune (c :: a ++ w) = decodeRune (c :: a) := by
        cases w with
        | nil => rw [List.append_nil]
        | cons d w => exact decodeRune_append (c :: a) (List.cons_ne_nil c a) d (hw d List.mem_cons_self).1 w
      have hsize := decodeRune_size c a
      rw [List.cons_append] at hsame
      rw [List.cons_append, allBlank, allBlank, hsame, ih _ (by omega)]

theorem rstrip_append (a w : Bytes) (hw : ∀ c ∈ w, AsciiBlank c) : rstrip (a ++ w) = rstrip a := by
  induction a with
  | nil =>
    rw [List.nil_append]
    cases w with
    | nil => rfl
    | cons c w => exact if_pos (allBlank_ascii (c :: w) hw)
  | cons c a ih =>
    have hblank := allBlank_append 0 (c :: a) w (Nat.zero_le _) hw
    rw [List.cons_append] at hblank
    rw [List.cons_append, rstrip, rstrip, hblank, ih]

theorem rstrip_visible (a : Bytes) (ha : ∀ c ∈ a, Visible c) : rstrip a = a := by
  induction a with
  | nil => rfl
  | cons c a ih =>
    rw [rstrip, allBlank_visible c a (ha c List.mem_cons_self), if_neg Bool.false_ne_true,
      ih fun d hd => ha d (List.mem_cons_of_mem c hd)]

/-- The end of a text without white space at its end. -/
theorem rstrip_suffix (a b : Bytes) (h : rstrip (a ++ b) = a ++ b) : rstrip b = b := by
  induction a with
  | nil => exact h
  | cons c a ih =>
    rw [List.cons_append, rstrip] at h
    split at h
    · cases h
    · exact ih (List.cons.inj h).2

theorem lstripFrom_suffix (skip : ℕ) (s : Bytes) : lstripFrom skip s <:+ s := by
  induction s generalizing skip with
  | nil =>
    rw [lstripFrom]
  | cons c s ih =>
    cases skip with
    | succ skip => exact (ih skip).trans (List.suffix_cons c s)
    | zero =>
      rw [lstripFrom]
      split
      · exact (ih _).trans (List.suffix_cons c s)
      · exact List.suffix_refl _

theorem not_space_error : isSpaceChar runeError = false := by decide

/-- A sequence that is read as white space is complete. -/
theorem decodeRune_space (a b : Bytes) (h : isSpaceChar (decodeRune a).1 = true) :
    decodeRune (a ++ b) = decodeRune a := by
  have herr := not_space_error
  rcases a with _ | ⟨c0, _ | ⟨c1, _ | ⟨c2, _ | ⟨c3, a⟩⟩⟩⟩
  · rw [decodeRune, herr] at h
    cases h
  · rw [decodeRune] at h
    split at h
    · next hc => rw [List.singleton_append, decodeRune_ascii c0 b hc, decodeRune_ascii c0 [] hc]
    · rw [herr] at h
      cases h
  · -- cut after two bytes: one or two more of `b` are looked at
    rcases b with _ | ⟨b0, _ | ⟨b1, b⟩⟩
    · rfl
    · simp only [decodeRune, List.cons_append, List.nil_append] at h ⊢
      split_ifs at h ⊢ <;> simp_all
    · simp only [decodeRune, List.cons_append, List.nil_append] at h ⊢
      split_ifs at h ⊢ <;> simp_all
  · cases b with
    | nil => rfl
    | cons b0 b =>
      simp only [decodeRune, List.cons_append, List.nil_append] at h ⊢
      split_ifs at h ⊢ <;> simp_all
  · rfl

theorem allBlank_join (skip : ℕ) (a w : Bytes) (hskip : skip ≤ a.length) (ha : allBlank skip a = true)
    (hw : allBlank 0 w = true) :
    allBlank skip (a ++ w) = true := by
  induction a generalizing skip with
  | nil =>
    cases Nat.le_zero.mp hskip
    exact hw
  | cons c a ih =>
    cases skip with
    | succ skip => exact ih skip (Nat.le_of_succ_le_succ hskip) ha
    | zero =>
      rw [allBlank, Bool.and_eq_true] at ha
      have hsame := decodeRune_space (c :: a) w ha.1
      have hsize := decodeRune_size c a
      rw [List.cons_append] at hsame
      rw [List.cons_append, allBlank, hsame, ha.1, Bool.true_and]
      exact ih _ (by omega) ha.2

theorem rstrip_split (s : Bytes) : ∃ w, s = rstrip s ++ w ∧ allBlank 0 w = true := by
  induction s with
  | nil => exact ⟨[], rfl, rfl⟩
  | cons c s ih =>
    rw [rstrip]
    split
    · next hblank => exact ⟨c :: s, rfl, hblank⟩
    · obtain ⟨w, hs, hw⟩ := ih
      exact ⟨w, by rw [List.cons_append, ← hs], hw⟩

theorem rstrip_rstrip (s : Bytes) : rstrip (rstrip s) = rstrip s := by
  induction s with
  | nil => rfl
  | cons c s ih =>
    cases hblank : allBlank 0 (c :: s) with
    | true =>
      rw [rstrip, if_pos hblank]
      rfl
    | false =>
      obtain ⟨w, hs, hw⟩ := rstrip_split s
      have hkept : allBlank 0 (c :: rstrip s) = false := by
        by_contra hall
        rw [Bool.not_eq_false] at hall
        have hjoin := allBlank_join 0 (c :: rstrip s) w (Nat.zero_le _) hall hw
        rw [List.cons_append, ← hs, hblank] at hjoin
        cases hjoin
      rw [rstrip, hblank, if_neg Bool.false_ne_true, rstrip, hkept, if_neg Bool.false_ne_true, ih]

theorem rstrip_strip (s : Bytes) : rstrip (strip s) = strip s := by
  obtain ⟨a, ha⟩ := lstripFrom_suffix 0 (rstrip s)
  refine rstrip_suffix a (strip s) ?_
  show rstrip (a ++ lstripFrom 0 (rstrip s)) = a ++ lstripFrom 0 (rstrip s)
  rw [ha, rstrip_rstrip]

theorem rstrip_initial (s : Bytes) : rstrip s <+: s := by
  obtain ⟨w, hs, -⟩ := rstrip_split s
  exact ⟨w, hs.symm⟩

theorem lstrip_ascii (w : Bytes) (hw : ∀ c ∈ w, AsciiBlank c) (c : UInt8) (s : Bytes) (hc : Visible c) :
    lstrip (w ++ c :: s) = c :: s := by
  unfold lstrip
  induction w with
  | nil => rw [List.nil_append, lstripFrom, decodeRune_visible c s hc, if_neg Bool.false_ne_true]
  | cons d w ih =>
    obtain ⟨hlt, hspace⟩ := hw d List.mem_cons_self
    rw [List.cons_append, lstripFrom, decodeRune_ascii d _ hlt, hspace, if_pos rfl]
    exact ih fun e he => hw e (List.mem_cons_of_mem d he)

/-! ## Expansion -/

/-- Empty lines behind a value are taken off again. -/
theorem joined_blank (value : Bytes) (k : ℕ) (h : rstrip value = value) :
    joined (value :: List.replicate k []) = value := by
  have hjoin : joinWith lf (value :: List.replicate k []) = value ++ List.replicate k lf := by
    induction k generalizing value with
    | zero => rw [List.replicate_zero, joinWith, List.replicate_zero, List.append_nil]
    | succ k ih =>
      rw [List.replicate_succ, joinWith, ih [] rfl, List.replicate_succ, List.nil_append, List.append_assoc,
        List.singleton_append]
  have hlf : ∀ c ∈ List.replicate k lf, AsciiBlank c := by
    intro c hc
    rw [List.eq_of_mem_replicate hc]
    exact ⟨by decide, by decide⟩
  rw [joined, hjoin, rstrip_append value _ hlf, h]

theorem mem_joinWith (sep : UInt8) (ps : List Bytes) (c : UInt8) (h : c ∈ joinWith sep ps) :
    c = sep ∨ ∃ p ∈ ps, c ∈ p := by
  fun_induction joinWith sep ps with
  | case1 => cases h
  | case2 p => exact .inr ⟨p, List.mem_cons_self, h⟩
  | case3 p q ps ih =>
    rw [List.append_assoc, List.mem_append, List.singleton_append, List.mem_cons] at h
    rcases h with h | rfl | h
    · exact .inr ⟨p, List.mem_cons_self, h⟩
    · exact .inl rfl
    · rcases ih h with hsep | ⟨p', hp', hc⟩
      · exact .inl hsep
      · exact .inr ⟨p', List.mem_cons_of_mem p hp', hc⟩

theorem joined_plain (lines : List Bytes) (h : ∀ l ∈ lines, percent ∉ l) : percent ∉ joined lines := by
  intro hmem
  rcases mem_joinWith lf lines percent ((rstrip_initial _).subset hmem) with hsep | ⟨l, hl, hc⟩
  · cases hsep
  · exact h l hl hc

/-- Of a value whose further lines have no percent sign, the first line has them all. -/
theorem joined_count (value : Bytes) (rest : List Bytes) (h : ∀ l ∈ rest, percent ∉ l) :
    (joined (value :: rest)).count percent ≤ value.count percent := by
  have hjoin : (joinWith lf (value :: rest)).count percent = value.count percent := by
    cases rest with
    | nil => rfl
    | cons l rest =>
      have hrest : percent ∉ joinWith lf (l :: rest) := by
        intro hmem
        rcases mem_joinWith lf (l :: rest) percent hmem with hsep | ⟨m, hm, hc⟩
        · cases hsep
        · exact h m hm hc
      rw [joinWith, List.append_assoc, List.count_append, List.singleton_append,
        List.count_cons_of_ne (by decide), List.count_eq_zero_of_not_mem hrest, Nat.add_zero]
  rw [← hjoin]
  exact (rstrip_initial _).sublist.count_le percent

/-- White space on both sides of a line end. -/
theorem allBlank_lf (skip : ℕ) (a b : Bytes) (hskip : skip ≤ a.length) :
    allBlank skip (a ++ lf :: b) = (allBlank skip a && allBlank 0 b) := by
  induction a generalizing skip with
  | nil =>
    cases Nat.le_zero.mp hskip
    have hlf : allBlank 0 (lf :: b) = (isSpaceChar (decodeRune (lf :: b)).1 &&
        allBlank ((decodeRune (lf :: b)).2 - 1) b) := rfl
    rw [List.nil_append, hlf, decodeRune_ascii lf b (by decide)]
    rfl
  | cons c a ih =>
    cases skip with
    | succ skip => exact ih skip (Nat.le_of_succ_le_succ hskip)
    | zero =>
      have hsame := decodeRune_append (c :: a) (List.cons_ne_nil c a) lf (by decide) b
      have hsize := decodeRune_size c a
      rw [List.cons_append] at hsame
      rw [List.cons_append, allBlank, allBlank, hsame, ih _ (by omega), Bool.and_assoc]

theorem allBlank_joinWith (ps : List Bytes) (h : allBlank 0 (joinWith lf ps) = true) :
    ∀ p ∈ ps, allBlank 0 p = true := by
  fun_induction joinWith lf ps with
  | case1 => exact fun p hp => absurd hp List.not_mem_nil
  | case2 p =>
    intro q hq
    rwa [List.mem_singleton.mp hq]
  | case3 p q ps ih =>
    rw [List.append_assoc, List.singleton_append, allBlank_lf 0 p _ (Nat.zero_le _), Bool.and_eq_true] at h
    intro p' hp'
    rcases List.mem_cons.mp hp' with rfl | hp'
    · exact h.1
    · exact ih h.2 p' hp'

/-- A line end in front of something visible stays. -/
theorem lf_mem_rstrip (a b : Bytes) (hb : allBlank 0 b = false) : lf ∈ rstrip (a ++ lf :: b) := by
  induction a with
  | nil =>
    have hblank := allBlank_lf 0 [] b (Nat.le_refl 0)
    rw [hb, Bool.and_false, List.nil_append] at hblank
    rw [List.nil_append, rstrip, hblank, if_neg Bool.false_ne_true]
    exact List.mem_cons_self
  | cons c a ih =>
    have hblank := allBlank_lf 0 (c :: a) b (Nat.zero_le _)
    rw [hb, Bool.and_false, List.cons_append] at hblank
    rw [List.cons_append, rstrip, hblank, if_neg Bool.false_ne_true]
    exact List.mem_cons_of_mem c ih

/-- A value of several lines holds a line end. -/
theorem lf_mem_joined (value : Bytes) (rest : List Bytes) (l : Bytes) (hl : l ∈ rest)
    (hstrip : rstrip l = l) (hne : l ≠ []) :
    lf ∈ joined (value :: rest) := by
  cases rest with
  | nil => cases hl
  | cons q rest =>
    rw [joined, joinWith, List.append_assoc, List.singleton_append]
    refine lf_mem_rstrip value _ ?_
    by_contra hall
    rw [Bool.not_eq_false] at hall
    have hblank := allBlank_joinWith _ hall l hl
    cases l with
    | nil => exact hne rfl
    | cons c l =>
      rw [rstrip, if_pos hblank] at hstrip
      cases hstrip

/-- A value is the one line `path` exactly if its first line is, and all others are empty. -/
theorem joined_eq_iff (value path : Bytes) (rest : List Bytes) (hvalue : rstrip value = value)
    (hpath : lf ∉ path) (hrest : ∀ l ∈ rest, rstrip l = l) : joined (value :: rest) = path ↔ value = path ∧
    rest.filter (· ≠ []) = [] := by
  have hempty : rest.filter (· ≠ []) = [] → joined (value :: rest) = value := by
    intro hnone
    have hall : ∀ l ∈ rest, l = [] := fun l hl => by
      by_contra hne
      exact List.filter_eq_nil_iff.mp hnone l hl (decide_eq_true hne)
    rw [List.eq_replicate_of_mem hall]
    exact joined_blank value rest.length hvalue
  constructor
  · intro hjoin
    have hnone : rest.filter (· ≠ []) = [] := by
      refine List.filter_eq_nil_iff.mpr fun l hl hne => hpath ?_
      rw [← hjoin]
      exact lf_mem_joined value rest l hl (hrest l hl) (of_decide_eq_true hne)
    exact ⟨(hempty hnone).symm.trans hjoin, hnone⟩
  · rintro ⟨rfl, hnone⟩
    exact hempty hnone

theorem expand_plain (vars : Bytes → Option Bytes) (nested : Bytes → Except ConfigError Bytes) (fuel : ℕ)
    (value : Bytes) (hfuel : value.length ≤ fuel) (h : percent ∉ value) :
    expand lower vars nested fuel value = .ok value := by
  induction value generalizing fuel with
  | nil =>
    cases fuel with
    | zero => rfl
    | succ fuel => rfl
  | cons c value ih =>
    rw [List.mem_cons, not_or] at h
    cases fuel with
    | zero => cases hfuel
    | succ fuel =>
      unfold expand
      rw [if_pos (Ne.symm h.1), ih fuel (Nat.le_of_succ_le_succ hfuel) h.2]
      rfl

theorem interpolateSome_plain (vars : Bytes → Option Bytes) (levels : ℕ) (value : Bytes) (h : percent ∉ value) :
    interpolateSome lower vars (levels + 1) value = .ok value :=
  expand_plain lower vars _ _ value (Nat.le_refl _) h

/-! A value that is its own expansion, where no other variable has a percent sign. -/

theorem reference_suffix (s name rest : Bytes) (h : reference s = some (name, rest)) : rest <:+ s := by
  unfold reference at h
  dsimp only at h
  split at h
  · next rest' hdrop =>
    split at h
    · cases h
    · cases h
      have hbehind : rest <:+ 0x29 :: 0x73 :: rest := (List.suffix_cons 0x73 rest).trans (List.suffix_cons _ _)
      rw [← hdrop] at hbehind
      exact hbehind.trans (List.drop_suffix _ _)
  · cases h

/-- A value that none but itself among the variables refers to with a percent sign: where it is not reached
again, the expansion halves the percent signs at least. -/
theorem expand_count (vars : Bytes → Option Bytes) (value : Bytes)
    (hvars : ∀ name v, vars name = some v → percent ∈ v → v = value) (nested : Bytes → Except ConfigError Bytes)
    (hno : ∀ a, nested value ≠ .ok a) (fuel : ℕ) (s out : Bytes)
    (h : expand lower vars nested fuel s = .ok out) :
    (∀ nested', expand lower vars nested' fuel s = .ok out) ∧ 2 * out.count percent ≤ s.count percent := by
  fun_induction expand lower vars nested fuel s generalizing out with
  | case1 =>
    cases h
    exact ⟨fun _ => rfl, Nat.zero_le _⟩
  | case2 =>
    cases h
    exact ⟨fun _ => rfl, Nat.zero_le _⟩
  | case3 fuel c rest hc ih =>
    obtain ⟨more, hmore, h⟩ := bind_eq_ok _ _ _ h
    cases h
    obtain ⟨hsame, hcount⟩ := ih more hmore
    refine ⟨fun nested' => ?_, ?_⟩
    · unfold expand
      rw [if_pos hc, hsame nested']
      rfl
    · rw [List.count_cons_of_ne hc, List.count_cons_of_ne hc]
      exact hcount
  | case4 fuel c hc rest ih =>
    rw [not_not] at hc
    obtain ⟨more, hmore, h⟩ := bind_eq_ok _ _ _ h
    cases h
    obtain ⟨hsame, hcount⟩ := ih more hmore
    refine ⟨fun nested' => ?_, ?_⟩
    · unfold expand
      rw [if_neg (not_not.mpr hc)]
      show (expand lower vars nested' fuel rest >>= fun more => pure (percent :: more)) = _
      rw [hsame nested']
      rfl
    · rw [hc, List.count_cons_self, List.count_cons_self, List.count_cons_self]
      omega
  | case5 => cases h
  | case6 => cases h
  | case7 fuel c hc rest name rest' href v hv jp hmem ih =>
    obtain ⟨a, ha, -⟩ := bind_eq_ok _ _ _ h
    rw [hvars _ v hv hmem] at ha
    exact absurd ha (hno a)
  | case8 fuel c hc rest name rest' href v hv jp hmem ih =>
    obtain ⟨front, hfront, h⟩ := bind_eq_ok _ _ _ h
    cases hfront
    obtain ⟨more, hmore, h⟩ := bind_eq_ok _ _ _ h
    cases h
    obtain ⟨hsame, hcount⟩ := ih more hmore
    refine ⟨fun nested' => ?_, ?_⟩
    · unfold expand
      rw [if_neg hc]
      simp only [href, hv, if_neg hmem]
      show (expand lower vars nested' fuel rest' >>= fun more => pure (v ++ more)) = _
      rw [hsame nested']
      rfl
    · have hsuffix := (reference_suffix rest name rest' href).sublist.count_le percent
      rw [not_not] at hc
      rw [List.count_append, List.count_eq_zero_of_not_mem hmem, hc, List.count_cons_self,
        List.count_cons_of_ne (by decide)]
      omega
  | case9 => cases h

/-- The expansion of a value that no other variable brings in with a percent sign has half of its percent
signs at most. -/
theorem interpolateSome_count (vars : Bytes → Option Bytes) (value out : Bytes)
    (hvars : ∀ name v, vars name = some v → percent ∈ v → v = value) (levels : ℕ)
    (h : interpolateSome lower vars levels value = .ok out) : 2 * out.count percent ≤ value.count percent := by
  have hfail : ∀ a : Bytes, (fun _ : Bytes => (Except.error .interpolationDepth : Except ConfigError Bytes))
      value ≠ .ok a := fun a ha => by
    cases ha
  by_cases hstops : ∃ out, expand lower vars (fun _ => .error .interpolationDepth) value.length value = .ok out
  · -- the value is not reached again
    obtain ⟨out', hout⟩ := hstops
    obtain ⟨hsame, hcount⟩ := expand_count lower vars value hvars _ hfail _ _ out' hout
    cases levels with
    | zero => cases h
    | succ levels =>
      have h' := hsame (interpolateSome lower vars levels)
      rw [interpolateSome, h'] at h
      cases h
      exact hcount
  · -- the value is reached again at every level
    have hnever : ∀ levels a, interpolateSome lower vars levels value ≠ .ok a := by
      intro levels
      induction levels with
      | zero =>
        intro a ha
        cases ha
      | succ levels ih =>
        intro a ha
        exact hstops ⟨a, (expand_count lower vars value hvars _ ih _ _ a ha).1 _⟩
    exact absurd h (hnever levels out)

end Minilog.Lib.ConfigParser
