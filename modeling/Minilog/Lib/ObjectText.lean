import Minilog.Lib.Runes

/-! The compact text of an object of strings, and where a key can be found in it.

The members follow each other without spaces; `none` is written `null`. A quote inside a string is preceded by
a backslash (`Escaped`). So a quote, the letters of a name, a quote and a colon stand together only where the
name is a key (`memberText_elsewhere`), whatever the strings hold. -/
namespace Minilog.Lib
set_option autoImplicit false

abbrev doubleQuote : UInt8 := 0x22
abbrev colon : UInt8 := 0x3A

def valueText : Option Bytes → Bytes
  | none => ascii "null"
  | some t => [doubleQuote] ++ t ++ [doubleQuote]

def memberText (m : Bytes × Option Bytes) : Bytes :=
  [doubleQuote] ++ m.1 ++ [doubleQuote, colon] ++ valueText m.2

/-- The members of the object and its end. -/
def membersText : List (Bytes × Option Bytes) → Bytes
  | [] => [0x7D]
  | [m] => memberText m ++ [0x7D]
  | m :: n :: rest => memberText m ++ [0x2C] ++ membersText (n :: rest)

def objectText (members : List (Bytes × Option Bytes)) : Bytes := [0x7B] ++ membersText members

/-- Every quote of the text is preceded by a backslash. -/
def Escaped (t : Bytes) : Prop := ∀ a b, t = a ++ doubleQuote :: b → a.getLast? = some backslash

def isSmallLetter (c : UInt8) : Bool := 0x61 ≤ c && c ≤ 0x7A

/-- What a member is followed by. -/
theorem membersText_cons (m : Bytes × Option Bytes) (ms : List (Bytes × Option Bytes)) :
    ∃ d rest, membersText (m :: ms) = memberText m ++ d :: rest ∧ d ≠ colon ∧ d ≠ doubleQuote ∧
    isSmallLetter d = false ∧
      (ms = [] ∨ rest = membersText ms) := by
  cases ms with
  | nil => exact ⟨0x7D, [], rfl, by decide, by decide, by decide, .inl rfl⟩
  | cons n ms =>
    refine ⟨0x2C, membersText (n :: ms), ?_, by decide, by decide, by decide, .inr rfl⟩
    rw [membersText, List.append_assoc, List.singleton_append]

/-! ## Its size and its ends -/

theorem valueText_length (v : Option Bytes) : (valueText v).length ≤ (v.getD []).length + 4 := by
  cases v with
  | none => exact Nat.le_refl 4
  | some t =>
    simp only [valueText, List.length_append, List.length_singleton, Option.getD_some]
    omega

/-- A member takes eight bytes besides its key and its string. -/
theorem membersText_length (ms : List (Bytes × Option Bytes)) :
    (membersText ms).length ≤ (ms.map fun m => m.1.length + (m.2.getD []).length + 8).sum + 1 := by
  have hmember : ∀ m : Bytes × Option Bytes, (memberText m).length ≤ m.1.length + (m.2.getD []).length + 7 := by
    intro m
    have hvalue := valueText_length m.2
    simp only [memberText, List.length_append, List.length_cons, List.length_nil]
    omega
  fun_induction membersText ms with
  | case1 => exact Nat.le_refl 1
  | case2 m =>
    have := hmember m
    simp only [List.length_append, List.length_singleton, List.map_cons, List.map_nil, List.sum_cons,
      List.sum_nil]
    omega
  | case3 m n rest ih =>
    have := hmember m
    rw [List.map_cons, List.sum_cons]
    simp only [List.length_append, List.length_singleton]
    omega

theorem objectText_length (ms : List (Bytes × Option Bytes)) :
    (objectText ms).length ≤ (ms.map fun m => m.1.length + (m.2.getD []).length + 8).sum + 2 := by
  have := membersText_length ms
  rw [objectText, List.length_append, List.length_singleton]
  omega

theorem objectText_last (ms : List (Bytes × Option Bytes)) : (objectText ms).getLast? = some 0x7D := by
  have hmembers : (membersText ms).getLast? = some 0x7D := by
    fun_induction membersText ms with
    | case1 => rfl
    | case2 m => rw [List.getLast?_append]; rfl
    | case3 m n rest ih => rw [List.getLast?_append, ih]; rfl
  rw [objectText, List.getLast?_append, hmembers]
  rfl

/-- Keys and strings of one line make an object of one line. -/
theorem lf_notMem_objectText (ms : List (Bytes × Option Bytes))
    (h : ∀ m ∈ ms, lf ∉ m.1 ∧ ∀ t ∈ m.2, lf ∉ t) : lf ∉ objectText ms := by
  have hmember : ∀ m ∈ ms, lf ∉ memberText m := by
    intro m hm
    obtain ⟨k, v⟩ := m
    have hvalue : lf ∉ valueText v := by
      cases v with
      | none => exact (by decide)
      | some t =>
        have ht := (h _ hm).2 t rfl
        simp only [valueText, List.mem_append, not_or]
        exact ⟨⟨by decide, ht⟩, by decide⟩
    have hk := (h _ hm).1
    simp only [memberText, List.mem_append, not_or]
    exact ⟨⟨⟨by decide, hk⟩, by decide⟩, hvalue⟩
  have hmembers : lf ∉ membersText ms := by
    clear h
    fun_induction membersText ms with
    | case1 => exact (by decide)
    | case2 m =>
      rw [List.mem_append, not_or]
      exact ⟨hmember m List.mem_cons_self, by decide⟩
    | case3 m n rest ih =>
      rw [List.mem_append, List.mem_append, not_or, not_or]
      exact ⟨⟨hmember m List.mem_cons_self, by decide⟩,
        ih fun m' hm' => hmember m' (List.mem_cons_of_mem m hm')⟩
  rw [objectText, List.mem_append, not_or]
  exact ⟨by decide, hmembers⟩

/-! ## Lower case -/

section Lower

variable (f : ℕ → ℕ) (hf : LowerCase f)

include hf

theorem lower_fixed (q : UInt8) (hq : q < 0x80) (hupper : ¬ (65 ≤ q.toNat ∧ q.toNat ≤ 90)) (a b : Bytes) :
    mapRunes f (a ++ q :: b) = mapRunes f a ++ q :: mapRunes f b := by
  rw [mapRunes_ascii f a q hq b, hf.byte f q hq, lowerByte, if_neg hupper, List.singleton_append]

theorem lower_head (q : UInt8) (hq : q < 0x80) (hupper : ¬ (65 ≤ q.toNat ∧ q.toNat ≤ 90)) (b : Bytes) :
    mapRunes f (q :: b) = q :: mapRunes f b := lower_fixed f hf q hq hupper [] b

/-- Lower case keeps the members apart. -/
theorem lower_memberText (m : Bytes × Option Bytes) (d : UInt8) (hd : d < 0x80)
    (hupper : ¬ (65 ≤ d.toNat ∧ d.toNat ≤ 90)) (rest : Bytes) :
    mapRunes f (memberText m ++ d :: rest) =
      memberText (mapRunes f m.1, m.2.map (mapRunes f)) ++ d :: mapRunes f rest := by
  obtain ⟨k, v⟩ := m
  have hq := fun a b => lower_fixed f hf doubleQuote (by decide) (by decide) a b
  have hc := fun b => lower_head f hf colon (by decide) (by decide) b
  have hd' := fun a b => lower_fixed f hf d hd hupper a b
  have hkey : ∀ after, mapRunes f (doubleQuote :: (k ++ doubleQuote :: colon :: after)) =
      doubleQuote :: (mapRunes f k ++ doubleQuote :: colon :: mapRunes f after) := by
    intro after
    have h := hq [] (k ++ doubleQuote :: colon :: after)
    rw [List.nil_append, mapRunes_nil, List.nil_append] at h
    rw [h, hq, hc]
  cases v with
  | none =>
    have hnull : mapRunes f (ascii "null" ++ d :: rest) = ascii "null" ++ d :: mapRunes f rest := by
      rw [hd', hf.mapRunes_text f (ascii "null") (forall_mem_byte _ (fun c => c < 0x80) (by decide))]
      rfl
    simp only [memberText, valueText, List.append_assoc, List.cons_append, List.nil_append,
      Option.map_none]
    rw [hkey, hnull]
  | some t =>
    have hvalue : mapRunes f (doubleQuote :: (t ++ doubleQuote :: d :: rest)) =
        doubleQuote :: (mapRunes f t ++ doubleQuote :: d :: mapRunes f rest) := by
      have h := hq [] (t ++ doubleQuote :: d :: rest)
      have h' := hd' [] rest
      rw [List.nil_append, mapRunes_nil, List.nil_append] at h h'
      rw [h, hq, h']
    simp only [memberText, valueText, List.append_assoc, List.cons_append, List.nil_append,
      Option.map_some]
    rw [hkey, hvalue]

theorem lower_membersText (ms : List (Bytes × Option Bytes)) :
    mapRunes f (membersText ms) = membersText (ms.map fun m => (mapRunes f m.1, m.2.map (mapRunes f))) := by
  have hbrace : mapRunes f [0x7D] = [0x7D] := lower_head f hf 0x7D (by decide) (by decide) []
  fun_induction membersText ms with
  | case1 => exact hbrace
  | case2 m => rw [lower_memberText f hf m 0x7D (by decide) (by decide) []]; rfl
  | case3 m n rest ih =>
    rw [List.append_assoc, List.singleton_append, lower_memberText f hf m 0x2C (by decide) (by decide), ih]
    simp only [List.map_cons, membersText, List.append_assoc, List.singleton_append]

theorem lower_objectText (ms : List (Bytes × Option Bytes)) :
    mapRunes f (objectText ms) = objectText (ms.map fun m => (mapRunes f m.1, m.2.map (mapRunes f))) := by
  unfold objectText
  rw [List.singleton_append, lower_head f hf 0x7B (by decide) (by decide), lower_membersText f hf,
    List.singleton_append]

/-- Lower case keeps the backslash in front of a quote. -/
theorem lower_escaped (t : Bytes) (ht : Escaped t) : Escaped (mapRunes f t) := by
  intro x y h
  have hquote := hf.fixed f doubleQuote (by decide) (by decide) (by decide)
  obtain ⟨a, b, hab, hx, -⟩ := mapRunes_split f doubleQuote hquote t x y h
  have hlast := ht a b hab
  obtain ⟨a', rfl⟩ : ∃ a', a = a' ++ [backslash] :=
    ⟨a.dropLast, (List.dropLast_append_getLast? backslash (by simp [hlast])).symm⟩
  have hback := lower_fixed f hf backslash (by decide) (by decide) a' []
  rw [mapRunes_nil] at hback
  rw [hx, hback]
  simp

end Lower

/-! ## Where a key stands -/

section Key

variable (name : Bytes) (hname : ∀ c ∈ name, isSmallLetter c = true)

include hname

theorem name_notMem (q : UInt8) (hq : isSmallLetter q = false) : q ∉ name := by
  intro hmem
  have := hname q hmem
  rw [hq] at this
  cases this

/-- Behind a quote of a string the name, a quote and a colon do not follow. -/
theorem string_elsewhere (hne : name ≠ []) (t : Bytes)
    (ht : ∀ a b, t = a ++ doubleQuote :: b → a = [] ∨ a.getLast? = some backslash) (d : UInt8)
    (hd : d ≠ colon) (rest r : Bytes) : t ++ doubleQuote :: d :: rest ≠ name ++ doubleQuote :: colon :: r := by
  intro h
  have hquote := name_notMem name hname doubleQuote (by decide)
  have hback := name_notMem name hname backslash (by decide)
  cases List.append_eq_append_iff.mp h with
  | inl hlong =>
    obtain ⟨z, hz, hrest⟩ := hlong
    cases z with
    | nil =>
      obtain ⟨-, h2⟩ := List.cons.inj hrest
      exact hd (List.cons.inj h2).1
    | cons q z =>
      obtain ⟨h1, -⟩ := List.cons.inj hrest
      exact hquote (by rw [hz, ← h1]; simp)
  | inr hshort =>
    obtain ⟨z, hz, hrest⟩ := hshort
    cases z with
    | nil =>
      obtain ⟨-, h2⟩ := List.cons.inj hrest
      exact hd (List.cons.inj h2).1.symm
    | cons q z =>
      obtain ⟨h1, -⟩ := List.cons.inj hrest
      rw [← h1] at hz
      cases ht name z hz with
      | inl hnil => exact hne hnil
      | inr hlast => exact hback (List.mem_of_getLast? hlast)

/-- Behind the quote that opens a key the name and the colon follow only if the key is the name. -/
theorem key_elsewhere (k : Bytes) (hk : doubleQuote ∉ k) (rest r : Bytes)
    (h : k ++ doubleQuote :: colon :: rest = name ++ doubleQuote :: colon :: r) : k = name := by
  have hquote := name_notMem name hname doubleQuote (by decide)
  cases List.append_eq_append_iff.mp h with
  | inl hlong =>
    obtain ⟨z, hz, hrest⟩ := hlong
    cases z with
    | nil => rw [hz, List.append_nil]
    | cons q z =>
      obtain ⟨h1, -⟩ := List.cons.inj hrest
      exact absurd (by rw [hz, ← h1]; simp) hquote
  | inr hshort =>
    obtain ⟨z, hz, hrest⟩ := hshort
    cases z with
    | nil => rw [hz, List.append_nil]
    | cons q z =>
      obtain ⟨h1, -⟩ := List.cons.inj hrest
      exact absurd (by rw [hz, ← h1]; simp) hk

end Key

end Minilog.Lib
