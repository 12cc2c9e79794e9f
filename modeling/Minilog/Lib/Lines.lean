import Minilog.Lib.Bytes

/-! Lines with the offset of their first byte.

`splitLines o s` cuts `s`, whose first byte is at offset `o`, at every LF; unlike `scanLines` it keeps
the empty piece after a final LF. It is written by recursion on the bytes, so that prepending one
byte is one rewriting step (`linesAfter_cons`): the reader that walks a file backwards does just that.
-/
namespace Minilog.Lib
set_option autoImplicit false

/-- The bytes in front of the first LF. -/
def firstLine (s : Bytes) : Bytes := s.takeWhile (· ≠ lf)

/-- The lines that start right after an LF of `s`. -/
def linesAfter : ℕ → Bytes → List (ℕ × Bytes)
  | _, [] => []
  | o, c :: s => if c = lf then (o + 1, firstLine s) :: linesAfter (o + 1) s else linesAfter (o + 1) s

def splitLines (o : ℕ) (s : Bytes) : List (ℕ × Bytes) := (o, firstLine s) :: linesAfter o s

theorem firstLine_lf (s : Bytes) : firstLine (lf :: s) = [] := rfl

theorem firstLine_cons (c : UInt8) (s : Bytes) (hc : c ≠ lf) : firstLine (c :: s) = c :: firstLine s := by
  simp [firstLine, hc]

theorem firstLine_eq (l : Bytes) (hl : lf ∉ l) : firstLine l = l := by
  induction l with
  | nil => rfl
  | cons c l ih =>
    simp only [List.mem_cons, not_or] at hl
    rw [firstLine_cons c l (Ne.symm hl.1), ih hl.2]

theorem firstLine_append (l s : Bytes) (hl : lf ∉ l) : firstLine (l ++ s) = l ++ firstLine s := by
  induction l with
  | nil => rfl
  | cons c l ih =>
    simp only [List.mem_cons, not_or] at hl
    rw [List.cons_append, firstLine_cons c _ (Ne.symm hl.1), ih hl.2, List.cons_append]

theorem linesAfter_cons (o : ℕ) (c : UInt8) (s : Bytes) :
    linesAfter o (c :: s) = if c = lf then splitLines (o + 1) s else linesAfter (o + 1) s := rfl

theorem linesAfter_append (o : ℕ) (l s : Bytes) (hl : lf ∉ l) :
    linesAfter o (l ++ s) = linesAfter (o + l.length) s := by
  induction l generalizing o with
  | nil => rfl
  | cons c l ih =>
    simp only [List.mem_cons, not_or] at hl
    rw [List.cons_append, linesAfter_cons, if_neg (Ne.symm hl.1), ih (o + 1) hl.2, List.length_cons]
    congr 1
    omega

theorem splitLines_unterminated (o : ℕ) (l : Bytes) (hl : lf ∉ l) : splitLines o l = [(o, l)] := by
  have h := linesAfter_append o l [] hl
  rw [List.append_nil] at h
  rw [splitLines, firstLine_eq l hl, h]
  rfl

theorem splitLines_terminated (o : ℕ) (l s : Bytes) (hl : lf ∉ l) :
    splitLines o (l ++ lf :: s) = (o, l) :: splitLines (o + (l.length + 1)) s := by
  rw [splitLines, firstLine_append l _ hl, firstLine_lf, List.append_nil, linesAfter_append o l _ hl,
    linesAfter_cons, if_pos rfl]
  rfl

theorem firstLine_append_lf (a s : Bytes) : firstLine (a ++ lf :: s) = firstLine a := by
  induction a with
  | nil => rfl
  | cons c a ih =>
    by_cases hc : c = lf
    · rw [hc]
      rfl
    · rw [List.cons_append, firstLine_cons c _ hc, firstLine_cons c _ hc, ih]

theorem linesAfter_append_lf (o : ℕ) (a s : Bytes) :
    linesAfter o (a ++ lf :: s) = linesAfter o a ++ splitLines (o + (a.length + 1)) s := by
  induction a generalizing o with
  | nil => rfl
  | cons c a ih =>
    have hlen : o + 1 + (a.length + 1) = o + ((c :: a).length + 1) := by rw [List.length_cons]; omega
    rw [List.cons_append, linesAfter, linesAfter, ih (o + 1), firstLine_append_lf, hlen]
    split <;> rfl

/-- Cutting a text at an LF cuts its lines there. -/
theorem splitLines_append_lf (o : ℕ) (a s : Bytes) :
    splitLines o (a ++ lf :: s) = splitLines o a ++ splitLines (o + (a.length + 1)) s := by
  rw [splitLines, firstLine_append_lf, linesAfter_append_lf]
  rfl

/-! ## Offsets -/

theorem splitLines_bounds (o : ℕ) (s : Bytes) :
    ∀ p ∈ splitLines o s, o ≤ p.1 ∧ p.1 + p.2.length ≤ o + s.length := by
  induction hn : s.length using Nat.strongRecOn generalizing o s with
  | ind n ih =>
    intro p hp
    by_cases h : lf ∈ s
    · obtain ⟨l, t, hs, hl⟩ := List.eq_append_cons_of_mem h
      have hlen : s.length = l.length + (t.length + 1) := by rw [hs, List.length_append, List.length_cons]
      rw [hs, splitLines_terminated o l t hl] at hp
      rcases List.mem_cons.mp hp with rfl | hp
      · simp only
        omega
      · have := ih t.length (by omega) (o + (l.length + 1)) t rfl p hp
        omega
    · rw [splitLines_unterminated o s h] at hp
      rw [List.mem_singleton.mp hp]
      simp only
      omega

/-- A line ends in front of the next one. -/
theorem splitLines_pairwise (o : ℕ) (s : Bytes) :
    (splitLines o s).Pairwise fun p q => p.1 + p.2.length ≤ q.1 := by
  induction hn : s.length using Nat.strongRecOn generalizing o s with
  | ind n ih =>
    by_cases h : lf ∈ s
    · obtain ⟨l, t, hs, hl⟩ := List.eq_append_cons_of_mem h
      have hlen : s.length = l.length + (t.length + 1) := by rw [hs, List.length_append, List.length_cons]
      rw [hs, splitLines_terminated o l t hl]
      refine List.pairwise_cons.mpr ⟨?_, ih t.length (by omega) _ t rfl⟩
      intro q hq
      have := splitLines_bounds _ t q hq
      simp only
      omega
    · rw [splitLines_unterminated o s h]
      exact List.pairwise_singleton _ _

/-- A line stands in the text at its offset, behind an LF or at the start, and ends at an LF or the end. -/
theorem splitLines_position (o : ℕ) (s : Bytes) (p : ℕ × Bytes) (hp : p ∈ splitLines o s) :
    ∃ before after, s = before ++ p.2 ++ after ∧ p.1 = o + before.length ∧ lf ∉ p.2 ∧
      (before = [] ∨ before.getLast? = some lf) ∧ (after = [] ∨ after.head? = some lf) := by
  induction hn : s.length using Nat.strongRecOn generalizing o s with
  | ind n ih =>
    by_cases h : lf ∈ s
    · obtain ⟨l, t, hs, hl⟩ := List.eq_append_cons_of_mem h
      rw [hs, splitLines_terminated o l t hl] at hp
      rcases List.mem_cons.mp hp with rfl | hp
      · exact ⟨[], lf :: t, by rw [hs]; rfl, by simp, hl, .inl rfl, .inr rfl⟩
      · have hlt : t.length < n := by
          rw [← hn, hs, List.length_append, List.length_cons]
          omega
        obtain ⟨before, after, ht, ho, hnot, hb, ha⟩ := ih t.length hlt _ t hp rfl
        refine ⟨l ++ lf :: before, after, ?_, ?_, hnot, .inr ?_, ha⟩
        · rw [hs, ht]
          simp only [List.append_assoc, List.cons_append]
        · rw [ho, List.length_append, List.length_cons]
          omega
        · rcases hb with rfl | hb
          · simp
          · rw [List.getLast?_append, List.getLast?_cons, hb]
            rfl
    · rw [splitLines_unterminated o s h] at hp
      rw [List.mem_singleton.mp hp]
      exact ⟨[], [], by simp, by simp, h, .inl rfl, .inl rfl⟩

/-! ## Closed lines -/

/-- The lines of a text that end in an LF, without it. -/
def closedLines : Bytes → List Bytes
  | [] => []
  | c :: s =>
    if c = lf then [] :: closedLines s
    else
      match closedLines s with
      | [] => []
      | l :: ls => (c :: l) :: ls

/-- Nothing in front of the next byte: the start of the text or an LF. -/
def AtLineStart (s : Bytes) : Prop := s = [] ∨ s.getLast? = some lf

theorem AtLineStart.append {a b : Bytes} (ha : AtLineStart a) (hb : AtLineStart b) : AtLineStart (a ++ b) := by
  cases hb with
  | inl hnil =>
    rw [hnil, List.append_nil]
    exact ha
  | inr hlast => exact .inr (List.mem_getLast?_append_of_mem_getLast? hlast)

theorem closedLines_line (l : Bytes) (hl : lf ∉ l) : closedLines (l ++ [lf]) = [l] := by
  induction l with
  | nil => rfl
  | cons c l ih =>
    simp only [List.mem_cons, not_or] at hl
    rw [List.cons_append, closedLines, if_neg (Ne.symm hl.1), ih hl.2]

theorem closedLines_ne_nil (s : Bytes) (h : lf ∈ s) : closedLines s ≠ [] := by
  induction s with
  | nil => cases h
  | cons c s ih =>
    rw [closedLines]
    split
    · exact List.cons_ne_nil _ _
    · next hc =>
      have hne := ih (by simpa [Ne.symm hc] using h)
      cases hs : closedLines s with
      | nil => exact absurd hs hne
      | cons l ls => exact List.cons_ne_nil _ _

theorem closedLines_append (a s : Bytes) (ha : AtLineStart a) :
    closedLines (a ++ s) = closedLines a ++ closedLines s := by
  induction a with
  | nil => rfl
  | cons c a ih =>
    have hlast := ha.resolve_left (List.cons_ne_nil c a)
    by_cases hnil : a = []
    · rw [hnil] at hlast ⊢
      have hc : c = lf := by simpa using hlast
      rw [hc]
      rfl
    · have ha' : AtLineStart a := .inr (by rw [← hlast, List.getLast?_cons_of_ne_nil hnil])
      rw [List.cons_append, closedLines, closedLines, ih ha']
      split
      · rfl
      · next hc =>
        cases hcl : closedLines a with
        | cons l ls => rfl
        | nil =>
          exact absurd hcl (closedLines_ne_nil a (List.mem_of_getLast? (ha'.resolve_left hnil)))

/-- What is appended only adds lines. -/
theorem closedLines_initial (a s : Bytes) : closedLines a <+: closedLines (a ++ s) := by
  induction a with
  | nil => exact List.nil_prefix
  | cons c a ih =>
    rw [List.cons_append, closedLines, closedLines]
    split
    · exact (List.prefix_cons_inj _).mpr ih
    · cases ha : closedLines a with
      | nil => exact List.nil_prefix
      | cons l ls =>
        rw [ha] at ih
        obtain ⟨rest, hrest⟩ := ih
        rw [← hrest]
        exact ⟨rest, rfl⟩

theorem closedLines_terminated (l s : Bytes) (hl : lf ∉ l) :
    closedLines (l ++ lf :: s) = l :: closedLines s := by
  have h := closedLines_append (l ++ [lf]) s (.inr (by simp))
  rwa [closedLines_line l hl, List.append_assoc, List.singleton_append, List.singleton_append] at h

theorem closedLines_unterminated (l : Bytes) (hl : lf ∉ l) : closedLines l = [] := by
  induction l with
  | nil => rfl
  | cons c l ih =>
    simp only [List.mem_cons, not_or] at hl
    rw [closedLines, if_neg (Ne.symm hl.1), ih hl.2]

theorem closedLines_subset (s : Bytes) (o : ℕ) : ∀ l ∈ closedLines s, ∃ q, (q, l) ∈ splitLines o s := by
  induction hn : s.length using Nat.strongRecOn generalizing s o with
  | ind n ih =>
    intro l hl
    by_cases h : lf ∈ s
    · obtain ⟨m, t, rfl, hm⟩ := List.eq_append_cons_of_mem h
      rw [closedLines_terminated m t hm] at hl
      rw [splitLines_terminated o m t hm]
      cases List.mem_cons.mp hl with
      | inl hl =>
        rw [hl]
        exact ⟨o, List.mem_cons_self⟩
      | inr hl =>
        have hlt : t.length < n := by
          rw [← hn, List.length_append, List.length_cons]
          omega
        obtain ⟨q, hq⟩ := ih t.length hlt t (o + (m.length + 1)) rfl l hl
        exact ⟨q, List.mem_cons_of_mem _ hq⟩
    · rw [closedLines_unterminated s h] at hl
      exact absurd hl List.not_mem_nil

theorem scanLines_ne_nil (s : Bytes) (h : s ≠ []) : scanLines s ≠ [] := by
  cases s with
  | nil => exact absurd rfl h
  | cons c s =>
    rw [scanLines]
    split
    · exact List.cons_ne_nil _ _
    · split
      · exact List.cons_ne_nil _ _
      · exact List.cons_ne_nil _ _

theorem scanLines_append (a s : Bytes) (ha : AtLineStart a) :
    scanLines (a ++ s) = scanLines a ++ scanLines s := by
  induction a with
  | nil => rfl
  | cons c a ih =>
    have hlast := ha.resolve_left (List.cons_ne_nil c a)
    by_cases hnil : a = []
    · rw [hnil] at hlast ⊢
      have hc : c = lf := by simpa using hlast
      rw [hc]
      rfl
    · have ha' : AtLineStart a := .inr (by rw [← hlast, List.getLast?_cons_of_ne_nil hnil])
      rw [List.cons_append, scanLines, scanLines, ih ha']
      split
      · rfl
      · cases hsl : scanLines a with
        | nil => exact absurd hsl (scanLines_ne_nil a hnil)
        | cons l ls => rfl

end Minilog.Lib
