import Minilog.Lib.Utf8
import Minilog.Output.Escape

/-! `escape_control_chars` of `minilog-cli-viewer.py` beside `escapeControlChars` of the server.

One works on code points, the other on the bytes of their UTF-8 form. In that form the pair of bytes that
stands for a C1 control is found nowhere else, so without a backslash, which only the server doubles, both
write the same. -/
namespace Minilog.Cli
open Lib
open Minilog.Output (escapeByte escapeC1 isC1Tail hex02)
set_option autoImplicit false

/-- `_CONTROL_CHARS`. -/
def isControlChar (ch : Char) : Bool :=
  ch.toNat ≤ 0x08 || (0x0A ≤ ch.toNat && ch.toNat ≤ 0x1F) || ch.toNat = 0x7F ||
    (0x80 ≤ ch.toNat && ch.toNat ≤ 0x9F)

/-- `f"{n:0<width>X}"`. -/
def hexUpper (width n : ℕ) : List Char :=
  let digits := (Nat.toDigits 16 n).map Char.toUpper
  List.replicate (width - digits.length) '0' ++ digits

def replace (ch : Char) : List Char :=
  if ch = '\n' then ['\\', 'n']
  else if ch = '\r' then ['\\', 'r']
  else if 0x80 ≤ ch.toNat then ['\\', 'u'] ++ hexUpper 4 ch.toNat
  else ['\\', 'x'] ++ hexUpper 2 ch.toNat

/-- `_CONTROL_CHARS.sub(replace, text)`. -/
def sub (text : List Char) : List Char := text.flatMap fun ch => if isControlChar ch then replace ch else [ch]

def escapeControlChars (text : List Char) : List Char :=
  if text.any isControlChar = false then text else sub text

/-- A text in which nothing is found would not be changed either. -/
theorem escapeControlChars_eq (text : List Char) : escapeControlChars text = sub text := by
  unfold escapeControlChars
  by_cases hnone : text.any isControlChar = false
  · rw [if_pos hnone]
    induction text with
    | nil => rfl
    | cons ch text ih =>
      rw [List.any_cons, Bool.or_eq_false_iff] at hnone
      have hrest := ih hnone.2
      unfold sub at hrest ⊢
      rw [List.flatMap_cons, hnone.1, if_neg Bool.false_ne_true, ← hrest]
      rfl
  · rw [if_neg hnone]

theorem sub_cons (ch : Char) (text : List Char) :
    sub (ch :: text) = (if isControlChar ch then replace ch else [ch]) ++ sub text := List.flatMap_cons

/-! ## One code point -/

/-- A byte that starts no C1 control is escaped on its own. -/
theorem escapeControlChars_byte (c : UInt8) (s : Bytes)
    (hc : c = 0xC2 → ∀ next ∈ s.head?, isC1Tail next = false) :
    Output.escapeControlChars (c :: s) = escapeByte c ++ Output.escapeControlChars s := by
  cases s with
  | nil => rw [Output.escapeControlChars, Output.escapeControlChars, List.append_nil]
  | cons next s =>
    have hno : (c = 0xC2 && isC1Tail next) = false := by
      by_cases hlead : c = 0xC2
      · rw [hc hlead next rfl, Bool.and_false]
      · rw [decide_eq_false hlead, Bool.false_and]
    rw [Output.escapeControlChars, hno, if_neg Bool.false_ne_true]

/-- A byte above ASCII is copied. -/
theorem escapeByte_high (c : UInt8) (hc : 0x80 ≤ c.toNat) : escapeByte c = [c] :=
  forall_byte (fun c => 0x80 ≤ c.toNat → escapeByte c = [c]) (by decide +kernel) c hc

theorem escapeControlChars_copied (q s : Bytes) (h : ∀ c ∈ q, 0x80 ≤ c.toNat ∧ c.toNat ≠ 0xC2) :
    Output.escapeControlChars (q ++ s) = q ++ Output.escapeControlChars s := by
  induction q with
  | nil => rfl
  | cons c q ih =>
    obtain ⟨hc, hlead⟩ := h c List.mem_cons_self
    rw [List.cons_append, escapeControlChars_byte c _ fun heq => absurd (congrArg UInt8.toNat heq) hlead,
      escapeByte_high c hc, ih fun d hd => h d (List.mem_cons_of_mem _ hd)]
    rfl

/-- ASCII: one byte, the same escape. -/
theorem escapeByte_ascii (n : Fin 128) (hn : n ≠ 0x5C) :
    utf8 (if isControlChar (Char.ofNat n) then replace (Char.ofNat n) else [Char.ofNat n]) =
      escapeByte (UInt8.ofNat n) := by
  revert n
  decide +kernel

/-- C1: the two bytes of the control become the escape of the code point. -/
theorem escapeC1_char (n : Fin 32) : isControlChar (Char.ofNat (0x80 + n)) = true ∧
    utf8 (replace (Char.ofNat (0x80 + n))) = escapeC1 (UInt8.ofNat (0x80 + n)) ∧
    isC1Tail (UInt8.ofNat (0x80 + n)) = true := by
  revert n
  decide +kernel

theorem not_isControlChar (ch : Char) (h : 0xA0 ≤ ch.toNat) : isControlChar ch = false := by
  unfold isControlChar
  simp only [Bool.or_eq_false_iff, Bool.and_eq_false_iff, decide_eq_false_iff_not]
  omega

theorem char_toNat (ch : Char) (n : ℕ) (h : ch.val.toNat = n) : ch = Char.ofNat n := by
  rw [← h]
  exact (Char.ofNat_toNat ch).symm

/-- Above C1: what stands for the code point is copied. -/
theorem escape_plain (ch : Char) (h : 0xA0 ≤ ch.toNat) (s : Bytes) :
    Output.escapeControlChars (String.utf8EncodeChar ch ++ s) = String.utf8EncodeChar ch ++
    Output.escapeControlChars s := by
  obtain ⟨v, hv⟩ : ∃ v, ch.val.toNat = v := ⟨_, rfl⟩
  have hlow : 0xA0 ≤ v := hv ▸ h
  have hvalid : v < 0xD800 ∨ 0xDFFF < v ∧ v < 0x110000 := hv ▸ ch.valid
  unfold String.utf8EncodeChar
  dsimp only
  rw [hv, if_neg (by omega)]
  by_cases h2 : v ≤ 0x7FF
  · rw [if_pos h2]
    have hsecond : 0x80 ≤ (UInt8.ofNat (v % 64 + 128)).toNat ∧ (UInt8.ofNat (v % 64 + 128)).toNat ≠ 0xC2 := by
      rw [toNat_ofNat8]
      omega
    have hfirst : 0x80 ≤ (UInt8.ofNat (v / 64 % 32 + 192)).toNat := by
      rw [toNat_ofNat8]
      omega
    -- behind C2 there is no byte of a C1 control, as the code point is above them
    have hpair : UInt8.ofNat (v / 64 % 32 + 192) = 0xC2 → isC1Tail (UInt8.ofNat (v % 64 + 128)) = false := by
      intro hlead
      have hnat : (UInt8.ofNat (v / 64 % 32 + 192)).toNat = 0xC2 := congrArg UInt8.toNat hlead
      rw [toNat_ofNat8] at hnat
      have hhigh : ¬ UInt8.ofNat (v % 64 + 128) ≤ 0x9F := by
        rw [UInt8.le_iff_toNat_le, toNat_ofNat8]
        change ¬ _ ≤ 0x9F
        omega
      rw [isC1Tail, decide_eq_false hhigh, Bool.and_false]
    have hcopied := escapeControlChars_copied [UInt8.ofNat (v % 64 + 128)] s fun c hc => by
      rw [List.mem_singleton.mp hc]
      exact hsecond
    rw [List.singleton_append] at hcopied
    rw [List.cons_append, List.singleton_append, escapeControlChars_byte _ _ fun hlead next hnext => ?_,
      escapeByte_high _ hfirst, hcopied]
    · rfl
    · cases hnext
      exact hpair hlead
  rw [if_neg h2]
  by_cases h3 : v ≤ 0xFFFF
  · rw [if_pos h3]
    refine escapeControlChars_copied _ s ?_
    simp only [List.mem_cons, List.not_mem_nil, or_false, forall_eq_or_imp, forall_eq, toNat_ofNat8]
    omega
  · rw [if_neg h3]
    refine escapeControlChars_copied _ s ?_
    simp only [List.mem_cons, List.not_mem_nil, or_false, forall_eq_or_imp, forall_eq, toNat_ofNat8]
    omega

/-- What both make of one code point in front of a text. -/
theorem escape_char (ch : Char) (hch : ch ≠ '\\') (s : Bytes) :
    Output.escapeControlChars (String.utf8EncodeChar ch ++ s) =
      utf8 (if isControlChar ch then replace ch else [ch]) ++ Output.escapeControlChars s := by
  obtain ⟨v, hv⟩ : ∃ v, ch.val.toNat = v := ⟨_, rfl⟩
  by_cases hascii : v ≤ 0x7F
  · have hbytes : String.utf8EncodeChar ch = [UInt8.ofNat v] := by
      unfold String.utf8EncodeChar
      dsimp only
      rw [hv, if_pos hascii]
    have hlead : UInt8.ofNat v ≠ 0xC2 := by
      intro h
      have hnat : (UInt8.ofNat v).toNat = 0xC2 := congrArg UInt8.toNat h
      rw [toNat_ofNat8] at hnat
      omega
    have hslash : (⟨v, by omega⟩ : Fin 128) ≠ 0x5C := by
      intro h
      have hval : v = 0x5C := congrArg Fin.val h
      exact hch ((char_toNat ch v hv).trans (hval ▸ rfl))
    have hsame := escapeByte_ascii ⟨v, by omega⟩ hslash
    dsimp only at hsame
    rw [hbytes, List.singleton_append, escapeControlChars_byte _ s fun h => absurd h hlead,
      char_toNat ch v hv, hsame]
  by_cases hc1 : v ≤ 0x9F
  · obtain ⟨hcontrol, hsame, htail⟩ := escapeC1_char ⟨v - 0x80, by omega⟩
    dsimp only at hcontrol hsame htail
    rw [show 0x80 + (v - 0x80) = v by omega] at hcontrol hsame htail
    have hbytes : String.utf8EncodeChar ch = [0xC2, UInt8.ofNat v] := by
      unfold String.utf8EncodeChar
      dsimp only
      rw [hv, if_neg hascii, if_pos (by omega), ofNat8_eq _ 0xC2 (by change _ = 0xC2; omega),
        show v % 64 + 128 = v by omega]
    rw [char_toNat ch v hv] at hbytes ⊢
    rw [hbytes, hcontrol, if_pos rfl, hsame, List.cons_append, List.singleton_append,
      Output.escapeControlChars, htail]
    rfl
  have hhigh : 0xA0 ≤ ch.toNat := by
    change 0xA0 ≤ ch.val.toNat
    omega
  rw [escape_plain ch hhigh, not_isControlChar ch hhigh, if_neg Bool.false_ne_true, utf8_cons, utf8_nil,
    List.append_nil]

/-! ## A text -/

/-- The screen shows what the text file has. -/
theorem escapeControlChars_utf8 (text : List Char) (h : '\\' ∉ text) :
    utf8 (escapeControlChars text) = Output.escapeControlChars (utf8 text) := by
  rw [escapeControlChars_eq]
  induction text with
  | nil => rfl
  | cons ch text ih =>
    rw [List.mem_cons, not_or] at h
    rw [sub_cons, utf8_append, ih h.2, utf8_cons, escape_char ch (Ne.symm h.1)]

/-- A line feed, an escape sequence, the 8-bit CSI, and a letter that has the byte 0x9B in it. -/
theorem escapeControlChars_utf8_mixed :
    utf8 (escapeControlChars ['a', '\n', Char.ofNat 0x1B, Char.ofNat 0x9B, Char.ofNat 0x6DB]) =
      Output.escapeControlChars [0x61, 0x0A, 0x1B, 0xC2, 0x9B, 0xDB, 0x9B] := by
  have h := escapeControlChars_utf8 ['a', '\n', Char.ofNat 0x1B, Char.ofNat 0x9B, Char.ofNat 0x6DB] (by decide)
  rw [h]
  rfl

end Minilog.Cli
