import Minilog.Lib.Bytes
import Mathlib.Data.Set.Basic
import Mathlib.Order.CompletePartialOrder
import Mathlib.Order.Disjoint

/-! The names a rotation derives from a configured file (`rotatedPath` in `output/log_file.cpp`), with the
parts of `std::filesystem::path` it uses, on POSIX paths.

`slotPath base 0` is the file itself and `slotPath base n` its generation `n`. The names of one chain
are pairwise different; two chains in normalised paths share a name only when one configured file is
named like a generation of the other (`slotPath_eq`). -/
namespace Minilog.Output
open Lib
set_option autoImplicit false

abbrev slash : UInt8 := 0x2F
abbrev dot : UInt8 := 0x2E

/-! ## std::filesystem::path -/

/-- Everything up to the last separator. -/
def directory (p : Bytes) : Bytes := p.rdropWhile (· ≠ slash)

def filename (p : Bytes) : Bytes := p.rtakeWhile (· ≠ slash)

def parentPath (p : Bytes) : Bytes :=
  let trimmed := (directory p).rdropWhile (· = slash)
  if trimmed = [] ∧ directory p ≠ [] then [slash] else trimmed

/-- From the last period on, unless that is the first byte; `..` has no extension. -/
def extension (p : Bytes) : Bytes :=
  let name := filename p
  let tail := name.rtakeWhile (· ≠ dot)
  if name = [dot, dot] ∨ name.length ≤ tail.length + 1 then [] else dot :: tail

def stem (p : Bytes) : Bytes := (filename p).take ((filename p).length - (extension p).length)

/-- `operator/` with a relative right side. -/
def join (dir name : Bytes) : Bytes :=
  if dir = [] ∨ dir.getLast? = some slash then dir ++ name else dir ++ [slash] ++ name

def rotatedPath (base : Bytes) (n : ℕ) : Bytes :=
  join (parentPath base) (stem base ++ [dot] ++ numeral n ++ extension base)

/-- The active file and its generations. -/
def slotPath (base : Bytes) (n : ℕ) : Bytes := if n = 0 then base else rotatedPath base n

/-! ## Names -/

theorem directory_append_filename (p : Bytes) : directory p ++ filename p = p :=
  List.rdropWhile_append_rtakeWhile ..

theorem slash_notMem_filename (p : Bytes) : slash ∉ filename p := by
  intro h
  have := List.mem_rtakeWhile_imp h
  simp at this

/-- What stands behind the last `c`. -/
theorem rtakeWhile_append (c : UInt8) (a x : Bytes) (hx : c ∉ x) (ha : a = [] ∨ a.getLast? = some c) :
    (a ++ x).rtakeWhile (· ≠ c) = x := by
  rw [List.rtakeWhile, List.reverse_append, List.takeWhile_append_of_pos]
  · rcases ha with rfl | ha
    · simp
    · have hhead : a.reverse.head? = some c := by rw [List.head?_reverse, ha]
      cases hd : a.reverse with
      | nil => simp
      | cons d rest =>
        rw [hd, List.head?_cons, Option.some.injEq] at hhead
        simp [hhead]
  · intro d hd
    have hd' : d ≠ c := fun e => hx (e ▸ List.mem_reverse.mp hd)
    simpa using hd'

theorem filename_join (dir name : Bytes) (hname : slash ∉ name) : filename (join dir name) = name := by
  unfold join
  split
  · next h => exact rtakeWhile_append slash dir name hname h
  · exact rtakeWhile_append slash (dir ++ [slash]) name hname (.inr (by simp))

/-- The last `c` of a byte string, if there is one. -/
theorem last_split (c : UInt8) (s : Bytes) :
    s.rtakeWhile (· ≠ c) = s ∨ ∃ a, s = a ++ c :: s.rtakeWhile (· ≠ c) := by
  have hsplit : s.rdropWhile (· ≠ c) ++ s.rtakeWhile (· ≠ c) = s := List.rdropWhile_append_rtakeWhile ..
  by_cases h : s.rdropWhile (· ≠ c) = []
  · rw [h, List.nil_append] at hsplit
    exact .inl hsplit
  · have hlast : (s.rdropWhile (· ≠ c)).getLast h = c := by
      have := List.rdropWhile_last_not _ _ h
      simpa using this
    refine .inr ⟨(s.rdropWhile (· ≠ c)).dropLast, ?_⟩
    have hconcat := List.dropLast_append_getLast h
    rw [hlast] at hconcat
    rw [← List.singleton_append, ← List.append_assoc, hconcat, hsplit]

theorem notMem_rtakeWhile (c : UInt8) (s : Bytes) : c ∉ s.rtakeWhile (· ≠ c) := by
  intro h
  have := List.mem_rtakeWhile_imp h
  simp at this

/-- A file name is a stem and an extension, or it has no period behind its first byte, or it is `..`. -/
theorem name_cases (p : Bytes) :
    (∃ e, extension p = dot :: e ∧ dot ∉ e ∧ stem p ≠ [] ∧ filename p = stem p ++ dot :: e) ∨
      (extension p = [] ∧ stem p = filename p ∧ (dot ∉ (filename p).drop 1 ∨ filename p = [dot, dot])) := by
  have htail := notMem_rtakeWhile dot (filename p)
  by_cases h : filename p = [dot, dot] ∨ (filename p).length ≤ ((filename p).rtakeWhile (· ≠ dot)).length + 1
  · have hext : extension p = [] := if_pos h
    refine .inr ⟨hext, by rw [stem, hext, List.length_nil, Nat.sub_zero, List.take_length], ?_⟩
    rcases h with h | h
    · exact .inr h
    · left
      intro hmem
      rcases last_split dot (filename p) with hs | ⟨a, hs⟩
      · rw [hs] at htail
        exact htail (List.mem_of_mem_drop hmem)
      · have hlen := congrArg List.length hs
        rw [List.length_append, List.length_cons] at hlen
        have ha : a = [] := List.length_eq_zero_iff.mp (by omega)
        rw [ha, List.nil_append] at hs
        rw [hs, List.drop_one, List.tail_cons] at hmem
        exact htail hmem
  · have hext : extension p = dot :: (filename p).rtakeWhile (· ≠ dot) := if_neg h
    rw [not_or] at h
    rcases last_split dot (filename p) with hs | ⟨a, hs⟩
    · rw [hs] at h
      omega
    · have hstem : stem p = a := by
        have hlen := congrArg List.length hs
        rw [List.length_append] at hlen
        rw [stem, hext, hlen, Nat.add_sub_cancel]
        conv => enter [1, 2]; rw [hs]
        rw [List.take_left]
      refine .inl ⟨_, hext, htail, ?_, ?_⟩
      · intro ha
        rw [hstem] at ha
        rw [ha, List.nil_append] at hs
        have hlen := congrArg List.length hs
        rw [List.length_cons] at hlen
        omega
      · rw [hstem]
        exact hs

theorem stem_append_extension (p : Bytes) : stem p ++ extension p = filename p := by
  rcases name_cases p with ⟨e, hext, -, -, hname⟩ | ⟨hext, hstem, -⟩
  · rw [hext, hname]
  · rw [hext, hstem, List.append_nil]

/-- The file name of generation `n`. -/
def generationName (base : Bytes) (n : ℕ) : Bytes := stem base ++ [dot] ++ numeral n ++ extension base

theorem slash_notMem_generationName (base : Bytes) (n : ℕ) : slash ∉ generationName base n := by
  have hname := slash_notMem_filename base
  rw [← stem_append_extension, List.mem_append, not_or] at hname
  intro h
  simp only [generationName, List.mem_append, List.mem_singleton] at h
  rcases h with ((h | h) | h) | h
  · exact hname.1 h
  · exact absurd h (by decide)
  · have := mem_numeral n slash h
    exact absurd this (by decide)
  · exact hname.2 h

theorem filename_rotatedPath (base : Bytes) (n : ℕ) : filename (rotatedPath base n) = generationName base n :=
  filename_join _ _ (slash_notMem_generationName base n)

/-- No generation is named like the file itself. -/
theorem rotatedPath_ne (base : Bytes) (n : ℕ) : rotatedPath base n ≠ base := by
  intro h
  have hname := congrArg filename h
  rw [filename_rotatedPath, ← stem_append_extension base] at hname
  have hlen := congrArg List.length hname
  simp only [generationName, List.length_append, List.length_singleton] at hlen
  omega

theorem rotatedPath_injective (base : Bytes) (n m : ℕ) (h : rotatedPath base n = rotatedPath base m) :
    n = m := by
  have hname := congrArg filename h
  rw [filename_rotatedPath, filename_rotatedPath, generationName, generationName, List.append_left_inj,
    List.append_right_inj] at hname
  exact numeral_injective n m hname

/-- The names of one chain are pairwise different. -/
theorem slotPath_injective (base : Bytes) (n m : ℕ) (h : slotPath base n = slotPath base m) : n = m := by
  unfold slotPath at h
  split at h
  · next hn =>
    split at h
    · next hm => rw [hn, hm]
    · exact absurd h.symm (rotatedPath_ne base m)
  · split at h
    · exact absurd h (rotatedPath_ne base n)
    · exact rotatedPath_injective base n m h

/-! ## Two chains -/

/-- Lexical normal form: rooted, no empty component, no `.` and no `..`. -/
def Normalised (p : Bytes) : Prop :=
  p.head? = some slash ∧ ¬ [slash, slash] <:+: p ∧ ¬ ascii "/./" <:+: p ∧ ¬ ascii "/../" <:+: p ∧
    ¬ ascii "/." <:+ p ∧ ¬ ascii "/.." <:+ p

instance (p : Bytes) : Decidable (Normalised p) := inferInstanceAs (Decidable (_ ∧ _))

/-- In normal form the directory ends in exactly one separator. -/
theorem directory_normalised (p : Bytes) (h : Normalised p) :
    ∃ d, directory p = d ++ [slash] ∧ d.rdropWhile (· = slash) = d := by
  have hne : directory p ≠ [] := by
    intro hnil
    have hall := List.rdropWhile_eq_nil_iff.mp hnil slash (List.mem_of_mem_head? h.1)
    simp at hall
  have hlast : (directory p).getLast hne = slash := by
    have := List.rdropWhile_last_not (fun c => decide (c ≠ slash)) p hne
    rw [decide_eq_true_eq, not_not] at this
    exact this
  have hconcat := List.dropLast_append_getLast hne
  rw [hlast] at hconcat
  refine ⟨(directory p).dropLast, hconcat.symm, ?_⟩
  apply List.rdropWhile_eq_self_iff.mpr
  intro hd hslash
  have hback := List.dropLast_append_getLast hd
  rw [of_decide_eq_true hslash] at hback
  apply h.2.1
  refine ⟨(directory p).dropLast.dropLast, filename p, ?_⟩
  rw [← List.singleton_append, ← List.append_assoc, hback, hconcat, directory_append_filename]

theorem rotatedPath_normalised (base : Bytes) (n : ℕ) (h : Normalised base) :
    rotatedPath base n = directory base ++ generationName base n := by
  obtain ⟨d, hd, htrim⟩ := directory_normalised base h
  have hparent : parentPath base = if d = [] then [slash] else d := by
    unfold parentPath
    simp only [hd]
    rw [List.rdropWhile_concat_pos _ _ _ (by simp), htrim]
    simp
  unfold rotatedPath
  rw [hparent, hd]
  by_cases hnil : d = []
  · rw [if_pos hnil, hnil]
    rfl
  · have hlast : d.getLast? ≠ some slash := by
      intro hl
      have hnot := List.rdropWhile_eq_self_iff.mp htrim hnil
      rw [List.getLast?_eq_some_getLast hnil, Option.some.injEq] at hl
      rw [hl] at hnot
      simp at hnot
    rw [if_neg hnil, join, if_neg (by simp [hnil, hlast])]
    rfl

/-- The last period cuts a name in one way. -/
theorem split_last_dot (a b x y : Bytes) (hx : dot ∉ x) (hy : dot ∉ y) (h : a ++ dot :: x = b ++ dot :: y) :
    a = b ∧ x = y := by
  have hxy : x = y := by
    have hx' := rtakeWhile_append dot (a ++ [dot]) x hx (.inr (by simp))
    have hy' := rtakeWhile_append dot (b ++ [dot]) y hy (.inr (by simp))
    rw [List.append_assoc, List.singleton_append] at hx' hy'
    rw [← hx', h, hy']
  rw [hxy] at h
  exact ⟨List.append_cancel_right h, hxy⟩

theorem dot_notMem_numeral (n : ℕ) : dot ∉ numeral n := fun h => absurd (mem_numeral n dot h) (by decide)

/-- A name with an extension and a name without one have no generation name in common. -/
theorem generationName_mixed (p q e : Bytes) (n m : ℕ) (hp : extension p = dot :: e) (he : dot ∉ e)
    (hstem : stem p ≠ []) (hq : extension q = []) (hname : stem q = filename q)
    (hdots : dot ∉ (filename q).drop 1 ∨ filename q = [dot, dot]) :
    generationName p n ≠ generationName q m := by
  intro h
  simp only [generationName, hp, hq, List.append_nil, List.append_assoc, List.singleton_append] at h
  rw [← List.append_assoc] at h
  obtain ⟨hcut, -⟩ := split_last_dot _ _ _ _ he (dot_notMem_numeral m) h
  rw [hname] at hcut
  have hlong := List.length_pos_iff.mpr hstem
  have hdigits := List.length_pos_iff.mpr (numeral_ne_nil n)
  rcases hdots with hdots | hdots
  · apply hdots
    rw [← hcut, List.drop_append_of_le_length hlong]
    exact List.mem_append_right _ List.mem_cons_self
  · rw [hdots] at hcut
    have hlen := congrArg List.length hcut
    rw [List.length_append, List.length_cons] at hlen
    simp only [List.length_cons, List.length_nil] at hlen
    omega

/-- Files with different names have no generation name in common. -/
theorem generationName_eq (p q : Bytes) (n m : ℕ) (h : generationName p n = generationName q m) :
    filename p = filename q := by
  have hstems : ∀ (k l : Bytes), k ++ [dot] ++ numeral n = l ++ [dot] ++ numeral m → k = l := by
    intro k l hkl
    rw [List.append_assoc, List.append_assoc, List.singleton_append, List.singleton_append] at hkl
    exact (split_last_dot k l _ _ (dot_notMem_numeral n) (dot_notMem_numeral m) hkl).1
  rcases name_cases p with ⟨e, hp, he, hpne, -⟩ | ⟨hp, hps, hpd⟩
  · rcases name_cases q with ⟨e', hq, he', hqne, -⟩ | ⟨hq, hqs, hqd⟩
    · rw [generationName, generationName, hp, hq] at h
      obtain ⟨hcut, hee⟩ := split_last_dot _ _ e e' he he' h
      rw [← stem_append_extension p, ← stem_append_extension q, hp, hq, hee, hstems _ _ hcut]
    · exact absurd h (generationName_mixed p q e n m hp he hpne hq hqs hqd)
  · rcases name_cases q with ⟨e', hq, he', hqne, -⟩ | ⟨hq, hqs, hqd⟩
    · exact absurd h.symm (generationName_mixed q p e' m n hq he' hqne hp hps hpd)
    · rw [generationName, generationName, hp, hq, List.append_nil, List.append_nil] at h
      rw [← hps, ← hqs]
      exact hstems _ _ h

/-- Two files in normal form share a generation only if they are the same file. -/
theorem rotatedPath_eq (p q : Bytes) (n m : ℕ) (hp : Normalised p) (hq : Normalised q)
    (h : rotatedPath p n = rotatedPath q m) : p = q := by
  have hname : generationName p n = generationName q m := by
    rw [← filename_rotatedPath, h, filename_rotatedPath]
  rw [rotatedPath_normalised p n hp, rotatedPath_normalised q m hq, hname] at h
  rw [← directory_append_filename p, ← directory_append_filename q, List.append_cancel_right h,
    generationName_eq p q n m hname]

end Minilog.Output
