import Minilog.Lib.Lines
import Minilog.Viewer.Reader

/-! What a chain that does not change holds: its texts, the lines of each text at their logical
offsets, and the place `fileAt` finds for an offset. -/
namespace Minilog.Viewer
open Lib
set_option autoImplicit false

/-- The contents of the chain's files, oldest first; missing and empty files are skipped. -/
def chainTexts (dir : Directory) (sink : Sink) : List Bytes :=
  ((candidates sink).filterMap dir).filter fun c => !c.isEmpty

/-- The lines of texts that follow each other, the first byte of the first at `o`. -/
def linesOf : ℕ → List Bytes → List (ℕ × Bytes)
  | _, [] => []
  | o, c :: cs => splitLines o c ++ linesOf (o + c.length) cs

def chainLines (dir : Directory) (sink : Sink) : List (ℕ × Bytes) := linesOf 0 (chainTexts dir sink)

/-- The non-empty lines that pass the filter. -/
def kept (keeps : Bytes → Bool) (lines : List (ℕ × Bytes)) : List (ℕ × Bytes) :=
  lines.filter fun p => !p.2.isEmpty && keeps p.2

def weight (p : ℕ × Bytes) : ℕ := p.2.length

theorem weight_mk (o : ℕ) (l : Bytes) : weight (o, l) = l.length := rfl

/-- The files stand one after another from offset `o` on and hold the texts, none of them empty. -/
inductive Holds (dir : Directory) : ℕ → List ChainFile → List Bytes → Prop
  | nil (o : ℕ) : Holds dir o [] []
  | cons (o : ℕ) (f : ChainFile) (fs : List ChainFile) (c : Bytes) (cs : List Bytes) (start : f.start = o)
      (content : dir f.path = some c) (size : f.size = c.length) (nonempty : c ≠ [])
      (tail : Holds dir (o + c.length) fs cs) : Holds dir o (f :: fs) (c :: cs)

theorem statAll_holds (dir : Directory) (k o : ℕ) (paths : List Bytes) :
    Holds dir o (statAll (fun _ => dir) k o paths).files
        ((paths.filterMap dir).filter fun c => !c.isEmpty) ∧
      (statAll (fun _ => dir) k o paths).total =
        o + ((paths.filterMap dir).filter fun c => !c.isEmpty).flatten.length := by
  induction paths generalizing k o with
  | nil => exact ⟨.nil o, rfl⟩
  | cons path rest ih =>
    unfold statAll
    cases hc : dir path with
    | none =>
      rw [List.filterMap_cons_none hc]
      exact ih (k + 1) o
    | some c =>
      rw [List.filterMap_cons_some hc]
      by_cases he : c.length = 0
      · have hnil : c = [] := List.length_eq_zero_iff.mp he
        subst hnil
        exact ih (k + 1) o
      · have hne : c ≠ [] := fun h => he (by rw [h]; rfl)
        obtain ⟨hfiles, htotal⟩ := ih (k + 1) (o + c.length)
        simp only [he, if_false]
        rw [List.filter_cons_of_pos (by simp [hne])]
        refine ⟨.cons o ⟨path, o, c.length⟩ _ c _ rfl hc rfl hne hfiles, ?_⟩
        rw [htotal, List.flatten_cons, List.length_append]
        omega

theorem newFileChain_holds (dir : Directory) (sink : Sink) :
    Holds dir 0 (newFileChain (fun _ => dir) sink).files (chainTexts dir sink) :=
  (statAll_holds dir 0 0 (candidates sink)).1

theorem newFileChain_total (dir : Directory) (sink : Sink) :
    (newFileChain (fun _ => dir) sink).total = (chainTexts dir sink).flatten.length := by
  have h := (statAll_holds dir 0 0 (candidates sink)).2
  rwa [Nat.zero_add] at h

theorem Holds.append (dir : Directory) (o : ℕ) (fs gs : List ChainFile) (cs ds : List Bytes)
    (hf : Holds dir o fs cs) (hg : Holds dir (o + cs.flatten.length) gs ds) :
    Holds dir o (fs ++ gs) (cs ++ ds) := by
  induction hf with
  | nil o => simpa using hg
  | cons o f fs c cs start content size nonempty _ ih =>
    refine .cons o f _ c _ start content size nonempty (ih ?_)
    rwa [List.flatten_cons, List.length_append, ← Nat.add_assoc] at hg

theorem Holds.mem (dir : Directory) (o : ℕ) (fs : List ChainFile) (cs : List Bytes) (h : Holds dir o fs cs) :
    ∀ f ∈ fs, ∃ c, dir f.path = some c ∧ c.length = f.size := by
  induction h with
  | nil o => exact fun f hf => absurd hf List.not_mem_nil
  | cons o f fs c cs start content size nonempty tail ih =>
    intro g hg
    cases List.mem_cons.mp hg with
    | inl h =>
      rw [h]
      exact ⟨c, content, size.symm⟩
    | inr h => exact ih g h

theorem Holds.length_eq (dir : Directory) (o : ℕ) (fs : List ChainFile) (cs : List Bytes)
    (h : Holds dir o fs cs) :
    fs.length = cs.length := by
  induction h with
  | nil o => rfl
  | cons o f fs c cs _ _ _ _ _ ih => rw [List.length_cons, List.length_cons, ih]

/-- Every file ends at or before the end of the texts. -/
theorem Holds.end_le (dir : Directory) (o : ℕ) (fs : List ChainFile) (cs : List Bytes) (h : Holds dir o fs cs) :
    ∀ f ∈ fs, f.start + f.size ≤ o + cs.flatten.length := by
  induction h with
  | nil o => simp
  | cons o f fs c cs start _ size _ _ ih =>
    intro g hg
    rw [List.flatten_cons, List.length_append]
    rcases List.mem_cons.mp hg with rfl | hg
    · omega
    · have := ih g hg
      omega

theorem linesOf_append (o : ℕ) (cs ds : List Bytes) :
    linesOf o (cs ++ ds) = linesOf o cs ++ linesOf (o + cs.flatten.length) ds := by
  induction cs generalizing o with
  | nil => rfl
  | cons c cs ih =>
    rw [List.cons_append, linesOf, linesOf, ih, List.flatten_cons, List.length_append, List.append_assoc,
      Nat.add_assoc]

theorem linesOf_snoc (o : ℕ) (cs : List Bytes) (c : Bytes) :
    linesOf o (cs ++ [c]) = linesOf o cs ++ splitLines (o + cs.flatten.length) c := by
  rw [linesOf_append]
  simp only [linesOf, List.append_nil]

theorem kept_append (keeps : Bytes → Bool) (l m : List (ℕ × Bytes)) :
    kept keeps (l ++ m) = kept keeps l ++ kept keeps m := List.filter_append ..

/-- A chain line stands in the chain's bytes at its offset. -/
theorem linesOf_position (o : ℕ) (cs : List Bytes) (p : ℕ × Bytes) (hp : p ∈ linesOf o cs) :
    ∃ before after, cs.flatten = before ++ p.2 ++ after ∧ p.1 = o + before.length := by
  induction cs generalizing o with
  | nil => exact absurd hp List.not_mem_nil
  | cons c cs ih =>
    rcases List.mem_append.mp hp with hp | hp
    · obtain ⟨before, after, hc, ho, -⟩ := splitLines_position o c p hp
      refine ⟨before, after ++ cs.flatten, ?_, ho⟩
      rw [List.flatten_cons, hc]
      simp only [List.append_assoc]
    · obtain ⟨before, after, hc, ho⟩ := ih (o + c.length) hp
      refine ⟨c ++ before, after, ?_, ?_⟩
      · rw [List.flatten_cons, hc]
        simp only [List.append_assoc]
      · rw [ho, List.length_append]
        omega

theorem linesOf_bounds (o : ℕ) (cs : List Bytes) :
    ∀ p ∈ linesOf o cs, o ≤ p.1 ∧ p.1 + p.2.length ≤ o + cs.flatten.length := by
  induction cs generalizing o with
  | nil => simp [linesOf]
  | cons c cs ih =>
    intro p hp
    rw [List.flatten_cons, List.length_append]
    rcases List.mem_append.mp hp with hp | hp
    · have := splitLines_bounds o c p hp
      omega
    · have := ih (o + c.length) p hp
      omega

theorem linesOf_pairwise (o : ℕ) (cs : List Bytes) :
    (linesOf o cs).Pairwise fun p q => p.1 + p.2.length ≤ q.1 := by
  induction cs generalizing o with
  | nil => exact List.Pairwise.nil
  | cons c cs ih =>
    refine List.pairwise_append.mpr ⟨splitLines_pairwise o c, ih (o + c.length), ?_⟩
    intro p hp q hq
    have hpc := splitLines_bounds o c p hp
    have hqc := linesOf_bounds (o + c.length) cs q hq
    omega

/-- The lines kept are in the order of their offsets, no offset twice. -/
theorem kept_pairwise (keeps : Bytes → Bool) (o : ℕ) (cs : List Bytes) :
    (kept keeps (linesOf o cs)).Pairwise fun p q => p.1 < q.1 := by
  have h := (linesOf_pairwise o cs).filter (fun p => !p.2.isEmpty && keeps p.2)
  refine h.imp_of_mem ?_
  intro p q hp _ hpq
  have hne : p.2 ≠ [] := by
    have := (List.mem_filter.mp hp).2
    simp only [Bool.and_eq_true, Bool.not_eq_true', List.isEmpty_eq_false_iff] at this
    exact this.1
  have := List.length_pos_iff.mpr hne
  omega

/-- The newest file and the files in front of it. -/
theorem Holds.snoc (dir : Directory) (o : ℕ) (pre : List ChainFile) (f : ChainFile) (cs : List Bytes)
    (h : Holds dir o (pre ++ [f]) cs) :
    ∃ bs c, cs = bs ++ [c] ∧ Holds dir o pre bs ∧ f.start = o + bs.flatten.length ∧ dir f.path = some c ∧
      f.size = c.length ∧ c ≠ [] := by
  induction pre generalizing o cs with
  | nil =>
    cases h with
    | cons _ _ _ c ds start content size nonempty tail =>
      cases tail
      exact ⟨[], c, rfl, .nil o, start, content, size, nonempty⟩
  | cons g pre ih =>
    cases h with
    | cons _ _ _ d ds start content size nonempty tail =>
      obtain ⟨bs, c, hds, hpre, hstart, hc, hsize, hne⟩ := ih (o + d.length) ds tail
      refine ⟨d :: bs, c, by rw [hds]; rfl, .cons o g pre d bs start content size nonempty hpre, ?_, hc,
        hsize, hne⟩
      rw [hstart, List.flatten_cons, List.length_append, Nat.add_assoc]

theorem Holds.last (dir : Directory) (o : ℕ) (pre : List ChainFile) (f : ChainFile) (cs : List Bytes)
    (h : Holds dir o (pre ++ [f]) cs) : f.start + f.size = o + cs.flatten.length := by
  obtain ⟨bs, c, hcs, -, hstart, -, hsize, -⟩ := h.snoc
  rw [hstart, hsize, hcs, List.flatten_append, List.length_append, List.flatten_singleton, Nat.add_assoc]

theorem Holds.lines_mem (dir : Directory) (o : ℕ) (fs : List ChainFile) (cs : List Bytes)
    (h : Holds dir o fs cs) :
    ∀ f ∈ fs, ∀ c, dir f.path = some c → ∀ p ∈ splitLines f.start c, p ∈ linesOf o cs := by
  induction h with
  | nil o => simp
  | cons o f fs c cs start content _ _ _ ih =>
    intro g hg d hd p hp
    rw [linesOf]
    rcases List.mem_cons.mp hg with rfl | hg
    · have hcd : c = d := Option.some.inj (content.symm.trans hd)
      rw [start, ← hcd] at hp
      exact List.mem_append_left _ hp
    · exact List.mem_append_right _ (ih g hg d hd p hp)

/-! ## The place of an offset -/

/-- Every offset in front of the end lies in a file. -/
theorem Holds.place (dir : Directory) (o : ℕ) (fs : List ChainFile) (cs : List Bytes)
    (h : Holds dir o fs cs) (m : ℕ) (hm : m < cs.flatten.length) :
    ∃ pre f later bs c ds n, fs = pre ++ f :: later ∧ cs = bs ++ c :: ds ∧ Holds dir o pre bs ∧
      f.start = o + bs.flatten.length ∧ dir f.path = some c ∧ f.size = c.length ∧
      m = bs.flatten.length + n ∧ n < c.length := by
  induction h generalizing m with
  | nil o => exact absurd hm (Nat.not_lt_zero m)
  | cons o f fs c cs start content size nonempty _ ih =>
    rw [List.flatten_cons, List.length_append] at hm
    by_cases hc : m < c.length
    · exact ⟨[], f, fs, [], c, cs, m, rfl, rfl, .nil o, start, content, size, (Nat.zero_add m).symm, hc⟩
    · obtain ⟨pre, g, later, bs, d, ds, n, hfs, hcs, hpre, hg, hd, hsz, hmn, hn⟩ := ih (m - c.length) (by omega)
      refine ⟨f :: pre, g, later, c :: bs, d, ds, n, by rw [hfs]; rfl, by rw [hcs]; rfl,
        .cons o f pre c bs start content size nonempty hpre, ?_, hd, hsz, ?_, hn⟩
      · rw [hg, List.flatten_cons, List.length_append, Nat.add_assoc]
      · rw [List.flatten_cons, List.length_append]
        omega

section Place

variable (dir : Directory) (fc : FileChain) (pre : List ChainFile) (f : ChainFile) (later : List ChainFile)
variable (cs : List Bytes)

theorem findIdx_place (hfiles : fc.files = pre ++ f :: later) (hpre : Holds dir 0 pre cs)
    (hstart : f.start = cs.flatten.length) (n : ℕ) (hn : n < f.size) :
    fc.files.findIdx? (fun g => decide (f.start + n < g.start + g.size)) = some pre.length := by
  have hend := hpre.end_le
  have hbefore : pre.findIdx? (fun g => decide (f.start + n < g.start + g.size)) = none := by
    apply List.findIdx?_eq_none_iff.mpr
    intro g hg
    have := hend g hg
    apply decide_eq_false
    omega
  have hhere : decide (f.start + n < f.start + f.size) = true := decide_eq_true (by omega)
  rw [hfiles, List.findIdx?_append, hbefore, List.findIdx?_cons, hhere]
  simp

/-- An offset inside a file is found there. -/
theorem fileAt_inside (hfiles : fc.files = pre ++ f :: later) (hpre : Holds dir 0 pre cs)
    (hstart : f.start = cs.flatten.length) (n : ℕ) (hn : n < f.size) (htotal : f.start + f.size ≤ fc.total) :
    fc.fileAt (f.start + n) = (pre.length, n) := by
  have hidx := findIdx_place dir fc pre f later cs hfiles hpre hstart n hn
  have hlt : ¬ f.start + n ≥ fc.total := by omega
  have hget : fc.files[pre.length]? = some f := by
    rw [hfiles, List.getElem?_append_right (Nat.le_refl _), Nat.sub_self]
    rfl
  unfold FileChain.fileAt
  rw [if_neg hlt, hidx]
  simp [hget]

/-- At and past the end of the chain it is the end of the last file. -/
theorem fileAt_end (hfiles : fc.files = pre ++ [f]) (o : ℕ) (ho : fc.total ≤ o) :
    fc.fileAt o = (pre.length, f.size) := by
  have hlen : fc.files.length - 1 = pre.length := by
    rw [hfiles, List.length_append]
    rfl
  have hget : fc.files[pre.length]? = some f := by
    rw [hfiles, List.getElem?_append_right (Nat.le_refl _), Nat.sub_self]
    rfl
  unfold FileChain.fileAt
  rw [if_pos ho, hlen, hget]
  rfl

end Place

end Minilog.Viewer
