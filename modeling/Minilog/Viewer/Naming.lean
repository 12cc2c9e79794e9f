import Minilog.Output.Paths
import Minilog.Viewer.Reader

/-! The names of rotated files, as the server writes them and as the web viewer probes them.

`std::filesystem` and Go cut a file name into stem and extension at the last period. They part over a
period that is the first byte of the name, which starts no extension in C++ and one in Go, and over `..`. -/
namespace Minilog.Viewer
open Lib
open Minilog.Output (directory filename parentPath extension stem join rotatedPath generationName)
set_option autoImplicit false

/-! ## What a path names -/

/-- The names walked through from the root: repeated separators count once. -/
def components (p : Bytes) : List Bytes := (p.splitOnP (· == slash)).filter (· ≠ [])

/-- The same entry of the same directory. -/
def SameFile (p q : Bytes) : Prop := components p = components q

instance (p q : Bytes) : Decidable (SameFile p q) := inferInstanceAs (Decidable (_ = _))

theorem components_append_slash (a b : Bytes) :
    components (a ++ slash :: b) = components a ++ components b := by
  rw [components, List.splitOnP_append_cons a b (by decide), List.filter_append]
  rfl

theorem components_name (name : Bytes) (hne : name ≠ []) (h : slash ∉ name) : components name = [name] := by
  have hno : ∀ c ∈ name, (c == slash) = false := by
    intro c hc
    rw [beq_eq_false_iff_ne]
    rintro rfl
    exact h hc
  rw [components, List.splitOnP_eq_singleton hno]
  simp [hne]

theorem components_trailing (a : Bytes) : components (a ++ [slash]) = components a := by
  rw [components_append_slash]
  exact List.append_nil _

theorem components_rdropWhile (a : Bytes) : components (a.rdropWhile (· = slash)) = components a := by
  induction a using List.reverseRecOn with
  | nil => rfl
  | append_singleton a c ih =>
    by_cases hc : c = slash
    · rw [List.rdropWhile_concat_pos _ _ _ (by simpa using hc), ih, hc, components_trailing]
    · rw [List.rdropWhile_concat_neg _ _ _ (by simpa using hc)]

theorem components_parentPath (p : Bytes) : components (parentPath p) = components (directory p) := by
  have htrim := components_rdropWhile (directory p)
  simp only [parentPath]
  split
  · next h =>
    rw [h.1] at htrim
    rw [← htrim]
    rfl
  · exact htrim

/-- A directory is empty or ends in a separator. -/
theorem directory_cases (p : Bytes) : directory p = [] ∨ ∃ d, directory p = d ++ [slash] := by
  by_cases h : directory p = []
  · exact .inl h
  · have hlast : (directory p).getLast h = slash := by
      have hnot := List.rdropWhile_last_not (fun c => decide (c ≠ slash)) p h
      rw [decide_eq_true_eq, not_not] at hnot
      exact hnot
    have hconcat := List.dropLast_append_getLast h
    rw [hlast] at hconcat
    exact .inr ⟨_, hconcat.symm⟩

theorem components_directory (p name : Bytes) (hne : name ≠ []) (h : slash ∉ name) :
    components (directory p ++ name) = components (directory p) ++ [name] := by
  rcases directory_cases p with hd | ⟨d, hd⟩
  · rw [hd, List.nil_append, components_name name hne h]
    rfl
  · rw [hd, List.append_assoc, List.singleton_append, components_append_slash, components_trailing,
      components_name name hne h]

theorem components_join (dir name : Bytes) (hne : name ≠ []) (h : slash ∉ name) :
    components (join dir name) = components dir ++ [name] := by
  unfold join
  split
  · next hdir =>
    rcases hdir with rfl | hlast
    · exact components_name name hne h
    · obtain ⟨d, rfl⟩ := List.getLast?_eq_some_iff.mp hlast
      rw [List.append_assoc, List.singleton_append, components_append_slash, components_trailing,
        components_name name hne h]
  · rw [List.append_assoc, List.singleton_append, components_append_slash, components_name name hne h]

/-! ## One path for one file -/

/-- A path from the root to a file, without repeated separators. -/
def Rooted (p : Bytes) : Prop := p.head? = some slash ∧ ¬ [slash, slash] <:+: p ∧ filename p ≠ []

theorem Rooted.split {p : Bytes} (h : Rooted p) :
    ∃ d, p = d ++ slash :: filename p ∧ (d = [] ∨ Rooted d) := by
  obtain ⟨hhead, htwice, hname⟩ := h
  have hparts := Output.directory_append_filename p
  rcases directory_cases p with hd | ⟨d, hd⟩
  · rw [hd, List.nil_append] at hparts
    rw [← hparts] at hhead
    exact absurd (List.mem_of_mem_head? hhead) (Output.slash_notMem_filename p)
  · have hp : p = d ++ slash :: filename p := by
      rw [hd, List.append_assoc, List.singleton_append] at hparts
      exact hparts.symm
    refine ⟨d, hp, ?_⟩
    by_cases hnil : d = []
    · exact .inl hnil
    · refine .inr ⟨?_, fun hin => htwice ?_, fun hnone => htwice ?_⟩
      · rw [hp, List.head?_append_of_ne_nil _ hnil] at hhead
        exact hhead
      · rw [hp]
        exact hin.trans (List.prefix_append _ _).isInfix
      · -- a directory that ends in a separator has another one behind it
        have hdir : directory d = d := by
          have := Output.directory_append_filename d
          rwa [hnone, List.append_nil] at this
        rcases directory_cases d with h0 | ⟨e, he⟩
        · rw [hdir] at h0
          exact absurd h0 hnil
        · rw [hdir] at he
          rw [he, List.append_assoc] at hp
          exact ⟨e, filename p, by rw [List.append_assoc]; exact hp.symm⟩

theorem Rooted.components {p : Bytes} (h : Rooted p) :
    ∃ d, p = d ++ slash :: filename p ∧ (d = [] ∨ Rooted d) ∧ components p = components d ++ [filename p] := by
  obtain ⟨d, hp, hd⟩ := h.split
  refine ⟨d, hp, hd, ?_⟩
  conv_lhs => rw [hp]
  rw [components_append_slash, components_name _ h.2.2 (Output.slash_notMem_filename p)]

/-- Two such paths name one file only if they are one path. -/
theorem Rooted.unique {p q : Bytes} (hp : Rooted p) (hq : Rooted q) (h : SameFile p q) : p = q := by
  induction hn : p.length using Nat.strong_induction_on generalizing p q with
  | _ n ih =>
    obtain ⟨d, hpd, hd, hpc⟩ := hp.components
    obtain ⟨e, hqe, he, hqc⟩ := hq.components
    unfold SameFile at h
    rw [hpc, hqc] at h
    obtain ⟨hdirs, hnames⟩ := List.append_inj' h rfl
    have hname : filename p = filename q := List.singleton_inj.mp hnames
    have hnone : Minilog.Viewer.components [] = [] := rfl
    have hdir : d = e := by
      rcases hd with rfl | hd
      · rcases he with rfl | he
        · rfl
        · obtain ⟨_, -, -, hec⟩ := he.components
          rw [hec, hnone] at hdirs
          exact absurd hdirs.symm (by simp)
      · rcases he with rfl | he
        · obtain ⟨_, -, -, hdc⟩ := hd.components
          rw [hdc, hnone] at hdirs
          exact absurd hdirs (by simp)
        · refine ih d.length ?_ hd he hdirs rfl
          rw [← hn, hpd, List.length_append, List.length_cons]
          omega
    rw [hpd, hqe, hdir, hname]

/-- A path in normal form, and each of its generations, is one of these. -/
theorem rooted_slotPath (base : Bytes) (h : Output.Normalised base) (hname : filename base ≠ []) (n : ℕ) :
    Rooted (Output.slotPath base n) := by
  unfold Output.slotPath
  split
  · exact ⟨h.1, h.2.1, hname⟩
  · obtain ⟨d, hd, -⟩ := Output.directory_normalised base h
    have hbase := Output.directory_append_filename base
    have hfile : filename (rotatedPath base n) = generationName base n := Output.filename_rotatedPath base n
    refine ⟨?_, ?_, ?_⟩
    · have hne : directory base ≠ [] := by
        rw [hd]
        simp
      have hhead := h.1
      rw [← hbase, List.head?_append_of_ne_nil _ hne] at hhead
      rw [Output.rotatedPath_normalised base n h, List.head?_append_of_ne_nil _ hne, hhead]
    · rw [Output.rotatedPath_normalised base n h]
      intro hin
      -- two separators in a row would both stand in the directory
      have hno : slash ∉ generationName base n := Output.slash_notMem_generationName base n
      obtain ⟨a, b, hab⟩ := hin
      rw [List.append_assoc] at hab
      rcases List.append_eq_append_iff.mp hab with ⟨u, hdir, hrest⟩ | ⟨u, hdir, hrest⟩
      · cases u with
        | nil =>
          rw [List.nil_append] at hrest
          exact hno (hrest ▸ List.mem_cons_self)
        | cons c u =>
          obtain ⟨hc, htail⟩ := List.cons.inj hrest
          cases u with
          | nil =>
            have hgen : slash :: b = generationName base n := htail
            exact hno (hgen ▸ List.mem_cons_self)
          | cons c' u =>
            obtain ⟨hc', -⟩ := List.cons.inj htail
            rw [hdir, ← hc, ← hc', List.append_assoc] at hbase
            exact h.2.1 ⟨a, u ++ filename base, by rw [List.append_assoc]; exact hbase⟩
      · exact hno (hrest ▸ List.mem_append_right _ List.mem_cons_self)
    · rw [hfile]
      unfold generationName
      simp

/-! ## The two ways to cut a name -/

/-- `filepath.Ext` of a path whose last element has a period. -/
theorem ext_dot (p a e : Bytes) (hname : filename p = a ++ dot :: e) (he : dot ∉ e) : ext p = dot :: e := by
  have hslash : slash ∉ filename p := Output.slash_notMem_filename p
  have hno : ∀ c ∈ e.reverse, decide (c ≠ slash ∧ c ≠ dot) = true := by
    intro c hc
    rw [List.mem_reverse] at hc
    have h1 : c ≠ slash := by
      rintro rfl
      rw [hname] at hslash
      exact hslash (by simp [hc])
    have h2 : c ≠ dot := by
      rintro rfl
      exact he hc
    exact decide_eq_true ⟨h1, h2⟩
  have hrev : p.reverse = e.reverse ++ dot :: (a.reverse ++ (directory p).reverse) := by
    conv => enter [1, 1]; rw [← Output.directory_append_filename p, hname]
    simp
  have htake : (p.reverse.takeWhile fun c => decide (c ≠ slash ∧ c ≠ dot)) = e.reverse := by
    rw [hrev, List.takeWhile_append_of_pos hno, List.takeWhile_cons_of_neg (by decide), List.append_nil]
  simp only [ext, htake]
  rw [hrev, List.drop_left]
  simp

/-- `filepath.Ext` of a path whose last element has none. -/
theorem ext_plain (p : Bytes) (h : dot ∉ filename p) : ext p = [] := by
  have hslash : slash ∉ filename p := Output.slash_notMem_filename p
  have hno : ∀ c ∈ (filename p).reverse, decide (c ≠ slash ∧ c ≠ dot) = true := by
    intro c hc
    rw [List.mem_reverse] at hc
    refine decide_eq_true ⟨?_, ?_⟩
    · rintro rfl
      exact hslash hc
    · rintro rfl
      exact h hc
  have hrev : p.reverse = (filename p).reverse ++ (directory p).reverse := by
    conv => enter [1, 1]; rw [← Output.directory_append_filename p]
    simp
  have hstop : ∀ c ∈ (directory p).reverse.head?, c = slash := by
    intro c hc
    rcases directory_cases p with hd | ⟨d, hd⟩
    · rw [hd] at hc
      cases hc
    · rw [hd, List.reverse_append] at hc
      cases hc
      rfl
  have htake : (p.reverse.takeWhile fun c => decide (c ≠ slash ∧ c ≠ dot)) = (filename p).reverse := by
    rw [hrev, List.takeWhile_append_of_pos hno]
    cases hd : (directory p).reverse with
    | nil => simp
    | cons c rest =>
      have hc := hstop c (by rw [hd]; rfl)
      rw [hc, List.takeWhile_cons_of_neg (by decide), List.append_nil]
  simp only [ext, htake]
  rw [hrev, List.drop_left]
  cases hd : (directory p).reverse with
  | nil => rfl
  | cons c rest =>
    have hc := hstop c (by rw [hd]; rfl)
    rw [hc]
    rfl

theorem trimSuffix_append (s suffix : Bytes) : trimSuffix (s ++ suffix) suffix = s := by
  have hsuf : suffix.isSuffixOf (s ++ suffix) = true :=
    List.isSuffixOf_iff_suffix.mpr (List.suffix_append s suffix)
  rw [trimSuffix, if_pos hsuf, List.length_append, Nat.add_sub_cancel, List.take_left]

/-- The name probed for generation `n`. -/
def probedPath (base : Bytes) (n : ℕ) : Bytes := trimSuffix base (ext base) ++ [dot] ++ numeral n ++ ext base

theorem generations_getElem (head ending : Bytes) (m n : ℕ) (h1 : 1 ≤ n) (hm : n ≤ m) :
    (generations head ending m)[m - n]? = some (head ++ [dot] ++ numeral n ++ ending) := by
  induction m with
  | zero => omega
  | succ m ih =>
    by_cases hn : n = m + 1
    · rw [hn, Nat.sub_self]
      rfl
    · have hsucc : m + 1 - n = m - n + 1 := by omega
      rw [hsucc, generations, List.getElem?_cons_succ]
      exact ih (by omega)

theorem length_generations (head ending : Bytes) (m : ℕ) : (generations head ending m).length = m := by
  induction m with
  | zero => rfl
  | succ m ih => rw [generations, List.length_cons, ih]

/-- Generation `n` is probed `n` places before the active file. -/
theorem candidates_getElem (sink : Sink) (n : ℕ) (h1 : 1 ≤ n) (hm : n ≤ sink.maxFiles) :
    (candidates sink)[sink.maxFiles - n]? = some (probedPath sink.path n) := by
  have hlt : sink.maxFiles - n < (generations (trimSuffix sink.path (ext sink.path))
      (ext sink.path) sink.maxFiles).length := by
    rw [length_generations]
    omega
  rw [candidates, List.getElem?_append_left hlt]
  exact generations_getElem _ _ _ n h1 hm

theorem probedPath_dot (base a e : Bytes) (n : ℕ) (hname : filename base = a ++ dot :: e) (he : dot ∉ e) :
    probedPath base n = directory base ++ (a ++ [dot] ++ numeral n ++ dot :: e) := by
  have hext := ext_dot base a e hname he
  have htrim : trimSuffix base (dot :: e) = directory base ++ a := by
    have h := trimSuffix_append (directory base ++ a) (dot :: e)
    rwa [List.append_assoc, ← hname, Output.directory_append_filename] at h
  rw [probedPath, hext, htrim]
  simp only [List.append_assoc]

theorem probedPath_plain (base : Bytes) (n : ℕ) (h : dot ∉ filename base) :
    probedPath base n = directory base ++ (filename base ++ [dot] ++ numeral n) := by
  have htrim := trimSuffix_append base []
  rw [List.append_nil] at htrim
  rw [probedPath, ext_plain base h, htrim, List.append_nil, ← List.append_assoc, ← List.append_assoc,
    Output.directory_append_filename]

/-- The last name of a rotated path decides. -/
theorem sameFile_iff (base name : Bytes) (n : ℕ) (hne : name ≠ []) (hslash : slash ∉ name) :
    SameFile (rotatedPath base n) (directory base ++ name) ↔ generationName base n = name := by
  have hgen : generationName base n ≠ [] := by simp [generationName]
  have hleft : components (rotatedPath base n) = components (directory base) ++ [generationName base n] := by
    rw [← components_parentPath]
    exact components_join _ _ hgen (Output.slash_notMem_generationName base n)
  rw [SameFile, hleft, components_directory base name hne hslash, List.append_cancel_left_eq,
    List.singleton_inj]

/-! ## Where they agree -/

/-- The file name is not `..`, and it is no period followed by a text without periods, unless that text is the
generation's own number. -/
def NamedAlike (base : Bytes) (n : ℕ) : Prop :=
  filename base ≠ [dot, dot] ∧ ∀ x, filename base = dot :: x → dot ∉ x → x = numeral n

theorem slash_notMem_numbered (a e : Bytes) (n : ℕ) (h : slash ∉ a ++ dot :: e) :
    slash ∉ a ++ [dot] ++ numeral n ++ dot :: e := by
  simp only [List.mem_append, List.mem_cons, not_or] at h
  simp only [List.mem_append, List.mem_cons, List.not_mem_nil, or_false, not_or]
  exact ⟨⟨⟨h.1, h.2.1⟩, fun hn => absurd (mem_numeral n slash hn) (by decide)⟩, h.2⟩

/-- An extension behind a non-empty stem: both programs cut there. -/
theorem alike_of_extension (base e : Bytes) (n m : ℕ) (hext : extension base = dot :: e) (he : dot ∉ e)
    (hstem : stem base ≠ []) (hname : filename base = stem base ++ dot :: e) :
    (SameFile (rotatedPath base n) (probedPath base m) ↔ n = m) ∧ NamedAlike base n := by
  have hslash := Output.slash_notMem_filename base
  rw [hname] at hslash
  refine ⟨?_, ?_, ?_⟩
  · rw [probedPath_dot base (stem base) e m hname he,
      sameFile_iff base _ n (by simp) (slash_notMem_numbered _ _ m hslash), generationName, hext,
      List.append_left_inj, List.append_right_inj]
    exact ⟨numeral_injective n m, congrArg numeral⟩
  · intro hdots
    have hnone : extension base = [] := if_pos (.inl hdots)
    rw [hnone] at hext
    cases hext
  · intro x hx hdot
    obtain ⟨c, t, hct⟩ := List.exists_cons_of_ne_nil hstem
    rw [hname, hct, List.cons_append, List.cons.injEq] at hx
    rw [← hx.2] at hdot
    exact absurd (List.mem_append_right t List.mem_cons_self) hdot

/-- No period at all: both programs put the number at the end. -/
theorem alike_of_plain (base : Bytes) (n m : ℕ) (hext : extension base = []) (hstem : stem base = filename base)
    (hplain : dot ∉ filename base) :
    (SameFile (rotatedPath base n) (probedPath base m) ↔ n = m) ∧ NamedAlike base n := by
  have hslash : slash ∉ filename base ++ [dot] ++ numeral m := by
    have h := Output.slash_notMem_generationName base m
    rwa [generationName, hext, hstem, List.append_nil] at h
  refine ⟨?_, ?_, ?_⟩
  · rw [probedPath_plain base m hplain, sameFile_iff base _ n (by simp) hslash, generationName, hext, hstem,
      List.append_nil, List.append_right_inj]
    exact ⟨numeral_injective n m, congrArg numeral⟩
  · intro hdots
    rw [hdots] at hplain
    exact hplain List.mem_cons_self
  · intro x hx
    rw [hx] at hplain
    exact absurd List.mem_cons_self hplain

/-- One period, in front: the number goes behind the name on one side and into it on the other. -/
theorem alike_of_hidden (base x : Bytes) (n m : ℕ) (hext : extension base = [])
    (hstem : stem base = filename base) (hname : filename base = dot :: x) (hx : dot ∉ x) :
    SameFile (rotatedPath base n) (probedPath base m) ↔ n = m ∧ NamedAlike base n := by
  have hslash := Output.slash_notMem_filename base
  rw [hname] at hslash
  rw [probedPath_dot base [] x m hname hx,
    sameFile_iff base _ n (by simp) (slash_notMem_numbered [] x m hslash), generationName, hext, hstem,
    hname, List.append_nil, List.append_assoc, List.singleton_append]
  constructor
  · intro heq
    obtain ⟨hhead, hnum⟩ := Output.split_last_dot (dot :: x) ([] ++ [dot] ++ numeral m) _ _
      (Output.dot_notMem_numeral n) hx heq
    have hxm : x = numeral m := (List.cons.inj hhead).2
    refine ⟨numeral_injective n m (hnum.trans hxm), ?_, ?_⟩
    · intro hdots
      rw [hname, List.cons.injEq] at hdots
      rw [hdots.2] at hx
      exact hx List.mem_cons_self
    · intro y hy _
      rw [hname, List.cons.injEq] at hy
      rw [← hy.2, ← hnum]
  · rintro ⟨rfl, h⟩
    rw [h.2 x hname hx]
    rfl

/-- Only one of the two names for a generation of `..` ends in its number. -/
theorem not_alike_of_dots (base : Bytes) (n m : ℕ) (hext : extension base = [])
    (hstem : stem base = filename base) (hname : filename base = [dot, dot]) :
    ¬ SameFile (rotatedPath base n) (probedPath base m) ∧ ¬ NamedAlike base n := by
  refine ⟨?_, fun h => h.1 hname⟩
  have hslash := Output.slash_notMem_filename base
  rw [hname] at hslash
  rw [probedPath_dot base [dot] [] m hname (by decide),
    sameFile_iff base _ n (by simp) (slash_notMem_numbered [dot] [] m hslash), generationName, hext, hstem,
    hname, List.append_nil, List.append_assoc, List.singleton_append]
  intro heq
  obtain ⟨-, hnum⟩ := Output.split_last_dot _ ([dot] ++ [dot] ++ numeral m) _ _
    (Output.dot_notMem_numeral n) (by decide) heq
  exact numeral_ne_nil n hnum

/-- The viewer's name for one generation is never the server's name for another. -/
theorem sameFile_probed_iff (base : Bytes) (n m : ℕ) :
    SameFile (rotatedPath base n) (probedPath base m) ↔ n = m ∧ NamedAlike base n := by
  rcases Output.name_cases base with ⟨e, hext, he, hstem, hname⟩ | ⟨hext, hstem, hdots⟩
  · have h := alike_of_extension base e n m hext he hstem hname
    rw [h.1]
    exact ⟨fun hnm => ⟨hnm, h.2⟩, fun hnm => hnm.1⟩
  by_cases hdd : filename base = [dot, dot]
  · have h := not_alike_of_dots base n m hext hstem hdd
    exact iff_of_false h.1 fun hnm => h.2 hnm.2
  by_cases hplain : dot ∈ filename base
  · -- the period is the first byte
    have hrest := hdots.resolve_right hdd
    cases hname : filename base with
    | nil =>
      rw [hname] at hplain
      cases hplain
    | cons c x =>
      rw [hname, List.drop_one, List.tail_cons] at hrest
      rw [hname, List.mem_cons] at hplain
      have hc : c = dot := (hplain.resolve_right hrest).symm
      exact alike_of_hidden base x n m hext hstem (by rw [hname, hc]) hrest
  · have h := alike_of_plain base n m hext hstem hplain
    rw [h.1]
    exact ⟨fun hnm => ⟨hnm, h.2⟩, fun hnm => hnm.1⟩

/-- A generation is never taken for the active file. -/
theorem not_sameFile_active (base : Bytes) (n : ℕ) : ¬ SameFile (rotatedPath base n) base := by
  have hgen : generationName base n ≠ [] := by simp [generationName]
  have hleft : components (rotatedPath base n) = components (directory base) ++ [generationName base n] := by
    rw [← components_parentPath]
    exact components_join _ _ hgen (Output.slash_notMem_generationName base n)
  have hbase : components base = components (directory base ++ filename base) := by
    rw [Output.directory_append_filename]
  rw [SameFile, hleft, hbase]
  by_cases hname : filename base = []
  · rw [hname, List.append_nil]
    intro h
    have hlen := congrArg List.length h
    rw [List.length_append, List.length_singleton] at hlen
    omega
  · rw [components_directory base _ hname (Output.slash_notMem_filename base), List.append_cancel_left_eq,
      List.singleton_inj]
    intro h
    have hlen := congrArg List.length h
    rw [← Output.stem_append_extension base, generationName] at hlen
    simp only [List.length_append, List.length_singleton] at hlen
    omega

/-- Which generations the viewer finds. -/
theorem probed_iff (sink : Sink) (n : ℕ) (h1 : 1 ≤ n) :
    (∃ p ∈ candidates sink, SameFile (rotatedPath sink.path n) p) ↔ n ≤ sink.maxFiles ∧
    NamedAlike sink.path n := by
  constructor
  · rintro ⟨p, hp, hsame⟩
    rw [candidates, List.mem_append, List.mem_singleton, mem_generations_iff] at hp
    rcases hp with ⟨m, hm1, hm, rfl⟩ | rfl
    · obtain ⟨rfl, halike⟩ := (sameFile_probed_iff sink.path n m).mp hsame
      exact ⟨hm, halike⟩
    · exact absurd hsame (not_sameFile_active _ n)
  · rintro ⟨hle, halike⟩
    refine ⟨probedPath sink.path n, ?_, (sameFile_probed_iff sink.path n n).mpr ⟨rfl, halike⟩⟩
    rw [candidates, List.mem_append, mem_generations_iff]
    exact .inl ⟨n, h1, hle, rfl⟩

/-- **The server and the web viewer name generation `n` alike** exactly when the file name is no such name. -/
theorem rotated_names_agree (sink : Sink) (n : ℕ) (h1 : 1 ≤ n) (hm : n ≤ sink.maxFiles) :
    ∃ probed, (candidates sink)[sink.maxFiles - n]? = some probed ∧
      (SameFile (rotatedPath sink.path n) probed ↔ NamedAlike sink.path n) :=
  ⟨_, candidates_getElem sink n h1 hm, by simp [sameFile_probed_iff]⟩

theorem rotated_names_agree_sample :
    ∃ probed, (candidates ⟨ascii "main", ascii "/var/log/syslog.jsonl", 3⟩)[2]? = some probed ∧
      SameFile (rotatedPath (ascii "/var/log/syslog.jsonl") 1) probed := by
  obtain ⟨probed, hprobed, hsame⟩ :=
    rotated_names_agree ⟨ascii "main", ascii "/var/log/syslog.jsonl", 3⟩ 1 (by decide) (by decide)
  refine ⟨probed, hprobed, hsame.mpr ⟨by decide, ?_⟩⟩
  intro x hx
  have hname : filename (ascii "/var/log/syslog.jsonl") = ascii "syslog.jsonl" := by decide
  rw [hname] at hx
  cases hx

/-- The server moves `/var/log/.audit` to `/var/log/.audit.1`; the viewer looks for `/var/log/.1.audit`. -/
theorem hidden_file_named_differently :
    rotatedPath (ascii "/var/log/.audit") 1 = ascii "/var/log/.audit.1" ∧
      (candidates ⟨ascii "main", ascii "/var/log/.audit", 1⟩)[0]? = some (ascii "/var/log/.1.audit") ∧
      ¬ SameFile (ascii "/var/log/.audit.1") (ascii "/var/log/.1.audit") := by
  refine ⟨by decide, by decide, by decide⟩

end Minilog.Viewer
