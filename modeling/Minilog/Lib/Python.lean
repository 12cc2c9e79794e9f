import Minilog.Lib.ConfigParser

/-! Python's strings and the values of `json.loads`, as far as `str` and a strict UTF-8 stream tell them apart.

A string is a list of code points, surrogates included; what can be encoded are those without. `str` of
anything but a string is `repr`, which writes a surrogate as an escape. What rests on Unicode tables, on the
calendar or on the limits of an interpreter is a field of `Interpreter`. -/
namespace Minilog.Lib.Python
set_option autoImplicit false

/-! ## Strings -/

/-- A code point: a scalar value, or one of the surrogates from U+D800 on. -/
inductive CodePoint where
  | scalar (c : Char)
  | surrogate (unit : Fin 0x800)
deriving DecidableEq

def CodePoint.ord : CodePoint → ℕ
  | .scalar c => c.toNat
  | .surrogate unit => 0xD800 + unit

@[simp] theorem CodePoint.ord_scalar (c : Char) : (scalar c).ord = c.toNat := rfl

@[simp] theorem CodePoint.ord_surrogate (unit : Fin 0x800) : (surrogate unit).ord = 0xD800 + unit := rfl

def CodePoint.isSurrogate : CodePoint → Bool
  | .scalar _ => false
  | .surrogate _ => true

theorem toNat_lt (c : Char) : c.toNat < 0x110000 := by
  have hlt : c.toNat < 0xD800 ∨ 0xDFFF < c.toNat ∧ c.toNat < 0x110000 := c.valid
  omega

/-- `chr(n)`. -/
def chr (n : ℕ) : CodePoint := if 0xD800 ≤ n ∧ n ≤ 0xDFFF then .surrogate (Fin.ofNat _ (n - 0xD800))
  else .scalar (Char.ofNat n)

abbrev Text := List CodePoint

def text (cs : List Char) : Text := cs.map .scalar

theorem text_cons (ch : Char) (cs : List Char) : text (ch :: cs) = .scalar ch :: text cs := rfl

theorem text_append (cs ds : List Char) : text (cs ++ ds) = text cs ++ text ds := List.map_append

def literal (s : String) : Text := text s.toList

@[simp] theorem literal_inj (s s' : String) : literal s = literal s' ↔ s = s' := by
  have hscalar : Function.Injective CodePoint.scalar := fun c d h => by injection h
  exact (List.map_injective_iff.mpr hscalar).eq_iff.trans String.toList_inj

/-- Nothing but scalar values. -/
def Scalars (t : Text) : Prop := ∀ c ∈ t, c.isSurrogate = false

instance (t : Text) : Decidable (Scalars t) := inferInstanceAs (Decidable (∀ c ∈ t, c.isSurrogate = false))

/-- `str.isspace` at both ends of a line of a file. -/
def strip (line : List Char) : List Char :=
  let blank (c : Char) : Bool := ConfigParser.isSpaceChar c.toNat
  ((line.dropWhile blank).reverse.dropWhile blank).reverse

/-- `pattern in t`. -/
def isIn (pattern : Text) : Text → Bool
  | [] => pattern = []
  | c :: t => pattern.isPrefixOf (c :: t) || isIn pattern t

section Scalars

variable (s t : Text) (c : CodePoint)

@[simp] theorem scalars_nil : Scalars [] := fun _ hc => by cases hc

@[simp] theorem scalars_cons : Scalars (c :: t) ↔ c.isSurrogate = false ∧ Scalars t := List.forall_mem_cons

@[simp] theorem scalars_append : Scalars (s ++ t) ↔ Scalars s ∧ Scalars t := List.forall_mem_append

@[simp] theorem scalars_text (cs : List Char) : Scalars (text cs) := by
  intro c hc
  obtain ⟨ch, -, rfl⟩ := List.mem_map.mp hc
  rfl

@[simp] theorem scalars_literal (s : String) : Scalars (literal s) := scalars_text _

theorem scalars_flatMap (f : CodePoint → Text) : Scalars (t.flatMap f) ↔ ∀ c ∈ t, Scalars (f c) := by
  induction t with
  | nil => simp
  | cons c t ih => rw [List.flatMap_cons, scalars_append, ih, List.forall_mem_cons]

/-- `sep.join(parts)`. -/
theorem scalars_intercalate (hs : Scalars s) (parts : List Text) :
    Scalars (s.intercalate parts) ↔ ∀ p ∈ parts, Scalars p := by
  induction parts with
  | nil => simp
  | cons p parts ih =>
    rcases List.eq_nil_or_concat parts with rfl | ⟨init, last, hparts⟩
    · simp
    · have hne : parts ≠ [] := by simp [hparts]
      rw [List.intercalate_cons_of_ne_nil hne, scalars_append, scalars_append, ih, List.forall_mem_cons]
      simp [hs]

end Scalars

/-! ## Values -/

/-- A float: what it prints as, and whether it is zero. -/
structure FloatValue where
  repr : List Char
  zero : Bool
deriving DecidableEq

inductive Value where
  | none
  | bool (b : Bool)
  | int (n : ℤ)
  | float (f : FloatValue)
  | str (t : Text)
  | list (elements : List Value)
  | dict (entries : List (Text × Value))

def Value.isNone : Value → Bool
  | .none => true
  | _ => false

/-- `bool(value)`. -/
def Value.truth : Value → Bool
  | .none => false
  | .bool b => b
  | .int n => n ≠ 0
  | .float f => !f.zero
  | .str t => t ≠ []
  | .list elements => !elements.isEmpty
  | .dict entries => !entries.isEmpty

/-- `type(value).__name__`. -/
def Value.typeName : Value → String
  | .none => "NoneType"
  | .bool _ => "bool"
  | .int _ => "int"
  | .float _ => "float"
  | .str _ => "str"
  | .list _ => "list"
  | .dict _ => "dict"

/-- An `Exception`, with its text. -/
inductive PyError where
  | valueError (what : Text)
  | attributeError (what : Text)
  | recursionError (what : Text)
  | otherError (what : Text)
  | unicodeEncodeError (object : Text)
deriving DecidableEq

/-- `except ValueError`. -/
def PyError.isValueError : PyError → Bool
  | .valueError _ | .unicodeEncodeError _ => true
  | _ => false

def PyError.isAttributeError : PyError → Bool
  | .attributeError _ => true
  | _ => false

/-- `datetime`, without the fields that are not read. -/
structure Datetime where
  month : ℕ
  day : ℕ
  hour : ℕ
  minute : ℕ
  second : ℕ

/-- `tooDeep` says for which values `repr` would recurse too deeply. -/
structure Interpreter where
  loads : List Char → Except PyError Value
  lower : Text → Text
  upper : Text → Text
  isprintable : CodePoint → Bool
  tooDeep : Value → Bool
  fromisoformat : Text → Except PyError Datetime

/-- The method `get` of a value, which only a `dict` has. -/
def Value.get (v : Value) (key : Text) : Except PyError Value :=
  match v with
  | .dict entries => .ok ((entries.lookup key).getD .none)
  | _ =>
    .error (.attributeError (literal "'" ++ literal v.typeName ++ literal "' object has no attribute 'get'"))

/-! ## `str` -/

section Str

variable (py : Interpreter)

def hexDigits (width n : ℕ) : List Char :=
  List.replicate (width - (Nat.toDigits 16 n).length) '0' ++ Nat.toDigits 16 n

/-- How `repr` writes a character between quotes. -/
def reprChar (quote : Char) (c : CodePoint) : Text :=
  if c = .scalar quote ∨ c = .scalar '\\' then [.scalar '\\', c]
  else if c = .scalar '\t' then text ['\\', 't']
  else if c = .scalar '\n' then text ['\\', 'n']
  else if c = .scalar '\r' then text ['\\', 'r']
  else if c.ord < 0x20 ∨ c.ord = 0x7F then text ('\\' :: 'x' :: hexDigits 2 c.ord)
  else if c.isSurrogate = false ∧ (c.ord < 0x7F ∨ py.isprintable c = true) then [c]
  else if c.ord ≤ 0xFF then text ('\\' :: 'x' :: hexDigits 2 c.ord)
  else if c.ord ≤ 0xFFFF then text ('\\' :: 'u' :: hexDigits 4 c.ord)
  else text ('\\' :: 'U' :: hexDigits 8 c.ord)

/-- The double quote for a string that holds single ones only. -/
def quoteOf (t : Text) : Char :=
  if .scalar (Char.ofNat 0x27) ∈ t ∧ .scalar '"' ∉ t then '"' else Char.ofNat 0x27

def reprString (t : Text) : Text :=
  .scalar (quoteOf t) :: t.flatMap (reprChar py (quoteOf t)) ++ [.scalar (quoteOf t)]

def intText (n : ℤ) : List Char := if n < 0 then '-' :: Nat.toDigits 10 n.natAbs else Nat.toDigits 10 n.natAbs

mutual

def repr : Value → Text
  | .none => literal "None"
  | .bool true => literal "True"
  | .bool false => literal "False"
  | .int n => text (intText n)
  | .float f => text f.repr
  | .str t => reprString py t
  | .list elements => text ['['] ++ (text [',', ' ']).intercalate (reprElements elements) ++ text [']']
  | .dict entries => text ['\x7b'] ++ (text [',', ' ']).intercalate (reprEntries entries) ++ text ['\x7d']

def reprElements : List Value → List Text
  | [] => []
  | v :: elements => repr v :: reprElements elements

def reprEntries : List (Text × Value) → List Text
  | [] => []
  | (key, v) :: entries => (reprString py key ++ text [':', ' '] ++ repr v) :: reprEntries entries

end

def str : Value → Except PyError Text
  | .str t => .ok t
  | v =>
    if py.tooDeep v then .error (.recursionError (literal "maximum recursion depth exceeded"))
      else .ok (repr py v)

/-- What `repr` writes of a character is no surrogate, whatever is printable. -/
theorem scalars_reprChar (quote : Char) (c : CodePoint) : Scalars (reprChar py quote c) := by
  unfold reprChar
  split_ifs with h1 h2 h3 h4 h5 h6
  · have hc : c.isSurrogate = false := by
      rcases h1 with rfl | rfl
      · rfl
      · rfl
    exact (scalars_cons _ _).mpr ⟨rfl, (scalars_cons _ _).mpr ⟨hc, scalars_nil⟩⟩
  · exact scalars_text _
  · exact scalars_text _
  · exact scalars_text _
  · exact scalars_text _
  · exact (scalars_cons _ _).mpr ⟨h6.1, scalars_nil⟩
  · exact scalars_text _
  · exact scalars_text _
  · exact scalars_text _

theorem scalars_reprString (t : Text) : Scalars (reprString py t) := by
  rw [reprString, scalars_append, scalars_cons, scalars_flatMap, scalars_cons]
  exact ⟨⟨rfl, fun c _ => scalars_reprChar py _ c⟩, rfl, scalars_nil⟩

mutual

theorem scalars_repr : ∀ v : Value, Scalars (repr py v)
  | .none => scalars_text _
  | .bool true => scalars_text _
  | .bool false => scalars_text _
  | .int _ => scalars_text _
  | .float _ => scalars_text _
  | .str t => scalars_reprString py t
  | .list elements => by
    rw [repr, scalars_append, scalars_append, scalars_intercalate _ (scalars_text _)]
    exact ⟨⟨scalars_text _, scalars_reprElements elements⟩, scalars_text _⟩
  | .dict entries => by
    rw [repr, scalars_append, scalars_append, scalars_intercalate _ (scalars_text _)]
    exact ⟨⟨scalars_text _, scalars_reprEntries entries⟩, scalars_text _⟩

theorem scalars_reprElements : ∀ elements : List Value, ∀ t ∈ reprElements py elements, Scalars t
  | [] => fun t ht => by cases ht
  | v :: elements => by
    rw [reprElements, List.forall_mem_cons]
    exact ⟨scalars_repr v, scalars_reprElements elements⟩

theorem scalars_reprEntries : ∀ entries : List (Text × Value), ∀ t ∈ reprEntries py entries, Scalars t
  | [] => fun t ht => by cases ht
  | (key, v) :: entries => by
    rw [reprEntries, List.forall_mem_cons, scalars_append, scalars_append]
    exact ⟨⟨⟨scalars_reprString py key, scalars_text _⟩, scalars_repr v⟩, scalars_reprEntries entries⟩

end

/-- The string that a value is, if it is one. -/
def Value.own : Value → Text
  | .str t => t
  | _ => []

/-- Only a string brings surrogates with it. -/
theorem scalars_str (v : Value) (t : Text) (h : str py v = .ok t) : Scalars t ↔ Scalars v.own := by
  cases v with
  | str s =>
    cases h
    rfl
  | none | bool | int | float | list | dict =>
    unfold str at h
    dsimp only at h
    split_ifs at h
    cases h
    exact iff_of_true (scalars_repr py _) scalars_nil

end Str

/-! ## Encoding -/

/-- `str(e)`. The first run of surrogates is what cannot be encoded. -/
def PyError.str : PyError → Text
  | .valueError what | .attributeError what | .recursionError what | .otherError what => what
  | .unicodeEncodeError object =>
    let start := (object.takeWhile fun c => !c.isSurrogate).length
    let run := (object.drop start).takeWhile CodePoint.isSurrogate
    let place :=
      if run.length = 1 then
        "character '\\u".toList ++ hexDigits 4 (run.headD (.surrogate 0)).ord ++ "' in position ".toList ++
        Nat.toDigits 10 start
      else "characters in position ".toList ++ Nat.toDigits 10 start ++ ['-'] ++
        Nat.toDigits 10 (start + run.length - 1)
    text ("'utf-8' codec can't encode ".toList ++ place ++ ": surrogates not allowed".toList)

/-- What a strict UTF-8 stream does with a string. -/
def encode (t : Text) : Except PyError Text := if Scalars t then .ok t else .error (.unicodeEncodeError t)

end Minilog.Lib.Python
