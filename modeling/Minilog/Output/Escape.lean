import Minilog.Lib.Bytes

/-! The text sink's escaping (`escapeControlChars` in `log_file.cpp`) and its inverse.

`unescape` reads the dialect of the README's escape table. It is stated here for comparison; the
server never decodes. Two facts carry the section: one source byte (or one C1 pair) is one escape
item that `unescape` reads back whatever follows it (`unescape_escapeByte`, `unescape_escapeC1`),
and no item starts with a byte in 0x80..0x9F unless it is that very byte copied, so a copied 0xC2
never meets a new continuation byte (`escapeControlChars_head`). -/
namespace Minilog.Output
open Lib
set_option autoImplicit false

/-! ## The escaper -/

/-- One uppercase hex digit, for values below 16. -/
def hexDigit (d : UInt8) : UInt8 := if d < 10 then 0x30 + d else 0x37 + d

/-- `std::format("{:02X}", c)`. -/
def hex02 (c : UInt8) : Bytes := [hexDigit (c / 16), hexDigit (c % 16)]

/-- The second byte of a C1 control's two-byte UTF-8 form. -/
def isC1Tail (next : UInt8) : Bool := 0x80 ≤ next && next ≤ 0x9F

/-- `std::format("\\u{:04X}", next)` for a byte. -/
def escapeC1 (next : UInt8) : Bytes := ascii "\\u00" ++ hex02 next

/-- What one byte that does not open a C1 pair becomes. -/
def escapeByte (c : UInt8) : Bytes :=
  if c = backslash then ascii "\\\\"
  else if c = lf then ascii "\\n"
  else if c = cr then ascii "\\r"
  else if (c < 0x20 && c != tab) || c = 0x7F then ascii "\\x" ++ hex02 c
  else [c]

def escapeControlChars : Bytes → Bytes
  | [] => []
  -- a lone 0xC2 at the end has no next byte to look at
  | [c] => escapeByte c
  | c :: next :: s =>
    if c = 0xC2 && isC1Tail next then escapeC1 next ++ escapeControlChars s
    else escapeByte c ++ escapeControlChars (next :: s)

/-- The text file after writing one line per message. -/
def textContent (raws : List Bytes) : Bytes := raws.flatMap fun raw => escapeControlChars raw ++ [lf]

/-! ## The documented inverse -/

def hexValue (c : UInt8) : Option UInt8 :=
  if 0x30 ≤ c && c ≤ 0x39 then some (c - 0x30)
  else if 0x41 ≤ c && c ≤ 0x46 then some (c - 0x37)
  else none

def hexByte (h l : UInt8) : Option UInt8 := do
  let a ← hexValue h
  let b ← hexValue l
  return a * 16 + b

/-- The escape that follows a backslash: the bytes it stands for and its length after the backslash. -/
def escapeItem : Bytes → Option (Bytes × ℕ)
  | 0x6E :: _ => some ([lf], 1)
  | 0x72 :: _ => some ([cr], 1)
  | 0x5C :: _ => some ([backslash], 1)
  | 0x78 :: h :: l :: _ => (hexByte h l).map fun b => ([b], 3)
  | 0x75 :: 0x30 :: 0x30 :: h :: l :: _ =>
    (hexByte h l).bind fun b => if isC1Tail b then some ([0xC2, b], 5) else none
  | _ => none

/-- Decode, passing over the first `skip` bytes, which belong to an escape already decoded. -/
def unescapeFrom : ℕ → Bytes → Bytes
  | _, [] => []
  | skip + 1, _ :: s => unescapeFrom skip s
  | 0, c :: s =>
    if c = backslash then
      match escapeItem s with
      | some (bytes, length) => bytes ++ unescapeFrom length s
      | none => c :: unescapeFrom 0 s
    else c :: unescapeFrom 0 s

/-- `\n`, `\r`, `\\`, `\xNN` and `\u0080`..`\u009F` are undone, anything else is literal. -/
def unescape (s : Bytes) : Bytes := unescapeFrom 0 s

/-! ## One item is read back -/

theorem hexByte_hex02 (c : UInt8) : hexByte (hexDigit (c / 16)) (hexDigit (c % 16)) = some c :=
  forall_byte (fun c => hexByte (hexDigit (c / 16)) (hexDigit (c % 16)) = some c) (by decide +kernel) c

theorem unescape_escapeByte (c : UInt8) (s : Bytes) : unescape (escapeByte c ++ s) = c :: unescape s := by
  unfold escapeByte
  split
  · next h => subst h; rfl
  split
  · next h => subst h; rfl
  split
  · next h => subst h; rfl
  split
  · have hi : escapeItem (0x78 :: (hex02 c ++ s)) = some ([c], 3) := by
      change (hexByte (hexDigit (c / 16)) (hexDigit (c % 16))).map (fun b => ([b], 3)) = _
      rw [hexByte_hex02]
      rfl
    change unescapeFrom 0 (backslash :: 0x78 :: (hex02 c ++ s)) = _
    rw [unescapeFrom, if_pos rfl, hi]
    rfl
  · next h _ _ _ =>
    rw [List.singleton_append, unescape, unescapeFrom, if_neg h]
    rfl

theorem unescape_escapeC1 (c : UInt8) (hc : isC1Tail c = true) (s : Bytes) :
    unescape (escapeC1 c ++ s) = 0xC2 :: c :: unescape s := by
  have hi : escapeItem (0x75 :: 0x30 :: 0x30 :: (hex02 c ++ s)) = some ([0xC2, c], 5) := by
    change (hexByte (hexDigit (c / 16)) (hexDigit (c % 16))).bind
      (fun b => if isC1Tail b then some ([0xC2, b], 5) else none) = _
    rw [hexByte_hex02]
    simp [hc]
  change unescapeFrom 0 (backslash :: 0x75 :: 0x30 :: 0x30 :: (hex02 c ++ s)) = _
  rw [unescapeFrom, if_pos rfl, hi]
  rfl

theorem unescape_escapeControlChars (raw : Bytes) : unescape (escapeControlChars raw) = raw := by
  fun_induction escapeControlChars raw with
  | case1 => rfl
  | case2 c =>
    have h := unescape_escapeByte c []
    rwa [List.append_nil] at h
  | case3 c next s h ih =>
    simp only [Bool.and_eq_true, decide_eq_true_eq] at h
    rw [unescape_escapeC1 next h.2, ih, h.1]
  | case4 c next s h ih => rw [unescape_escapeByte, ih]

/-! ## Nothing a terminal or a line reader acts on is left -/

/-- The bytes `escapeByte` never lets through: C0 other than TAB, and DEL. -/
def isControl (c : UInt8) : Bool := (c < 0x20 && c != tab) || c = 0x7F

/-- The bytes of a C1 control in UTF-8, side by side. -/
def C1Pair (a b : UInt8) : Prop := a = 0xC2 ∧ isC1Tail b = true

instance (a b : UInt8) : Decidable (C1Pair a b) := inferInstanceAs (Decidable (_ ∧ _))

/-- What can be read off the escape of a single byte, for all bytes at once. -/
theorem escapeByte_shape : ∀ c, (escapeByte c).all (fun b => decide (isControl b = false)) = true ∧
    ((escapeByte c).IsChain fun a b => ¬ C1Pair a b) ∧
    (escapeByte c).getLast?.toList.all (fun b => decide (b = 0xC2 → c = 0xC2)) = true ∧ escapeByte c ≠ [] ∧
    (escapeByte c).head?.toList.all (fun b => decide (isC1Tail b = true → isC1Tail c = true)) = true :=
  forall_byte _ (by decide +kernel)

theorem escapeC1_shape : ∀ c, (escapeC1 c).all (fun b => decide (isControl b = false)) = true ∧
    ((escapeC1 c).IsChain fun a b => ¬ C1Pair a b) ∧
    (escapeC1 c).getLast?.toList.all (fun b => decide (b ≠ 0xC2)) = true :=
  forall_byte _ (by decide +kernel)

theorem escapeByte_clean (c : UInt8) : ∀ b ∈ escapeByte c, isControl b = false :=
  forall_mem_byte (escapeByte c) (fun b => isControl b = false) (escapeByte_shape c).1

theorem escapeC1_clean (c : UInt8) : ∀ b ∈ escapeC1 c, isControl b = false :=
  forall_mem_byte (escapeC1 c) (fun b => isControl b = false) (escapeC1_shape c).1

theorem escapeControlChars_clean (raw : Bytes) : ∀ b ∈ escapeControlChars raw, isControl b = false := by
  fun_induction escapeControlChars raw with
  | case1 => simp
  | case2 c => exact escapeByte_clean c
  | case3 c next s h ih =>
    intro b hb
    rcases List.mem_append.mp hb with hb | hb
    · exact escapeC1_clean next b hb
    · exact ih b hb
  | case4 c next s h ih =>
    intro b hb
    rcases List.mem_append.mp hb with hb | hb
    · exact escapeByte_clean c b hb
    · exact ih b hb

theorem escapeByte_chain (c : UInt8) : (escapeByte c).IsChain fun a b => ¬ C1Pair a b :=
  (escapeByte_shape c).2.1

theorem escapeC1_chain (c : UInt8) : (escapeC1 c).IsChain fun a b => ¬ C1Pair a b := (escapeC1_shape c).2.1

theorem escapeByte_getLast (c : UInt8) : ∀ b ∈ (escapeByte c).getLast?, b = 0xC2 → c = 0xC2 := by
  obtain ⟨-, -, h, -⟩ := escapeByte_shape c
  exact fun b hb => forall_mem_byte _ (fun b => b = 0xC2 → c = 0xC2) h b (Option.mem_toList.mpr hb)

theorem escapeC1_getLast (c : UInt8) : ∀ b ∈ (escapeC1 c).getLast?, b ≠ 0xC2 := by
  obtain ⟨-, -, h⟩ := escapeC1_shape c
  exact fun b hb => forall_mem_byte _ (fun b => b ≠ 0xC2) h b (Option.mem_toList.mpr hb)

theorem escapeByte_head (c : UInt8) : ∃ b t, escapeByte c = b :: t ∧
    (isC1Tail b = true → isC1Tail c = true) := by
  obtain ⟨-, -, -, hne, h⟩ := escapeByte_shape c
  obtain ⟨b, t, hbt⟩ := List.exists_cons_of_ne_nil hne
  rw [hbt] at h
  exact ⟨b, t, hbt, forall_mem_byte [b] (fun b => isC1Tail b = true → isC1Tail c = true) h b List.mem_cons_self⟩

/-- An escaped text opens with a C1 tail byte only when the text itself does. -/
theorem escapeControlChars_head (c : UInt8) (s : Bytes) :
    ∀ b ∈ (escapeControlChars (c :: s)).head?, isC1Tail b = true → isC1Tail c = true := by
  intro b hb htail
  obtain ⟨d, t, hd, hdc⟩ := escapeByte_head c
  cases s with
  | nil =>
    rw [escapeControlChars, hd] at hb
    cases hb
    exact hdc htail
  | cons next s =>
    rw [escapeControlChars] at hb
    split at hb
    · cases hb
      exact absurd htail (by decide)
    · rw [hd] at hb
      cases hb
      exact hdc htail

theorem escapeControlChars_chain (raw : Bytes) : (escapeControlChars raw).IsChain fun a b => ¬ C1Pair a b := by
  fun_induction escapeControlChars raw with
  | case1 => exact .nil
  | case2 c => exact escapeByte_chain c
  | case3 c next s h ih =>
    refine List.isChain_append.mpr ⟨escapeC1_chain next, ih, ?_⟩
    intro a ha b _ hab
    exact escapeC1_getLast next a ha hab.1
  | case4 c next s h ih =>
    refine List.isChain_append.mpr ⟨escapeByte_chain c, ih, ?_⟩
    -- a copied 0xC2 followed by a C1 tail would have been taken by the other branch
    intro a ha b hb hab
    have hc := escapeByte_getLast c a ha hab.1
    have hn := escapeControlChars_head next s b hb hab.2
    exact h (by simp [hc, hn])

theorem lf_not_mem_escapeControlChars (raw : Bytes) : lf ∉ escapeControlChars raw :=
  fun h => absurd (escapeControlChars_clean raw lf h) (by decide)

theorem scanLines_textContent (raws : List Bytes) :
    scanLines (textContent raws) = raws.map escapeControlChars := by
  have h := scanLines_flatMap (raws.map escapeControlChars) (by
    intro l hl
    obtain ⟨raw, _, rfl⟩ := List.mem_map.mp hl
    exact lf_not_mem_escapeControlChars raw)
  rwa [List.flatMap_map] at h

/-- **The text sink is lossless and injection-free.** Whatever the messages were, the lines of the
file decode to them one by one, and no line holds a control byte or a C1 pair. -/
theorem textContent_lossless (raws : List Bytes) :
    (scanLines (textContent raws)).map unescape = raws ∧
    ∀ line ∈ scanLines (textContent raws),
      lf ∉ line ∧ cr ∉ line ∧ (∀ c ∈ line, c < 0x20 → c = tab) ∧ 0x7F ∉ line ∧
      ∀ before after c, line = before ++ 0xC2 :: c :: after → ¬ (0x80 ≤ c ∧ c ≤ 0x9F) := by
  rw [scanLines_textContent]
  refine ⟨?_, ?_⟩
  · rw [List.map_map]
    calc raws.map (unescape ∘ escapeControlChars) = raws.map id :=
          List.map_congr_left fun raw _ => unescape_escapeControlChars raw
      _ = raws := List.map_id raws
  · intro line hline
    obtain ⟨raw, _, rfl⟩ := List.mem_map.mp hline
    have hclean := escapeControlChars_clean raw
    refine ⟨lf_not_mem_escapeControlChars raw, ?_, ?_, ?_, ?_⟩
    · exact fun h => absurd (hclean cr h) (by decide)
    · intro c hc hlt
      have h := hclean c hc
      simp only [isControl, hlt, decide_true, Bool.true_and, Bool.or_eq_false_iff, bne_eq_false_iff_eq] at h
      exact h.1
    · exact fun h => absurd (hclean 0x7F h) (by decide)
    · intro before after c hsplit hc
      have hchain := escapeControlChars_chain raw
      rw [hsplit] at hchain
      have hpair := (List.isChain_append.mp hchain).2.1
      rw [List.isChain_cons_cons] at hpair
      exact hpair.1 ⟨rfl, by simp [isC1Tail, hc.1, hc.2]⟩

end Minilog.Output
