import Minilog.Viewer.Scan

/-! Places of a chain, a line start or the end of a file: where a line stands, the lines in front of a place
and behind it, and what a read there sees. -/
namespace Minilog.Viewer
open Lib
set_option autoImplicit false

/-- The lines at and behind an offset, as the scanner hands them on. -/
def linesFrom (dir : Directory) (sink : Sink) (o : ℕ) : List (ℕ × Bytes) :=
  ((chainLines dir sink).filter fun p => decide (o ≤ p.1)).map token

def everything : Filter := ⟨[], [], [], []⟩

theorem matches_everything (lower : Bytes → Bytes) (l : Bytes) : everything.matches lower l = true := by
  simp [everything, Filter.matches]

/-! ## The place of a line -/

theorem firstLine_position (l after : Bytes) (hl : lf ∉ l) (ha : after = [] ∨ after.head? = some lf) :
    firstLine (l ++ after) = l := by
  rw [firstLine_append l after hl]
  cases ha with
  | inl h => rw [h, firstLine_eq [] List.not_mem_nil, List.append_nil]
  | inr h =>
    obtain ⟨s, rfl⟩ := List.head?_eq_some_iff.mp h
    rw [firstLine_lf, List.append_nil]

/-- The file of a text. -/
theorem Holds.text_file (dir : Directory) (o : ℕ) (files : List ChainFile) (bs : List Bytes) (c : Bytes)
    (cs : List Bytes) (h : Holds dir o files (bs ++ c :: cs)) :
    ∃ pre f later, files = pre ++ f :: later ∧ Holds dir o pre bs ∧ f.start = o + bs.flatten.length ∧
    dir f.path = some c ∧
      f.size = c.length ∧ c ≠ [] ∧ Holds dir (f.start + f.size) later cs := by
  induction bs generalizing o files with
  | nil =>
    cases h with
    | cons _ f fs _ _ start content size nonempty tail =>
      exact ⟨[], f, fs, rfl, .nil o, start, content, size, nonempty, by rw [start, size]; exact tail⟩
  | cons b bs ih =>
    cases h with
    | cons _ f fs _ _ start content size nonempty tail =>
      obtain ⟨pre, g, later, hfiles, hpre, hstart, hg, hsize, hne, hlater⟩ := ih (o + b.length) fs tail
      refine ⟨f :: pre, g, later,
        by rw [hfiles, List.cons_append], .cons o f pre b bs start content size nonempty hpre, ?_, hg,
        hsize, hne, hlater⟩
      rw [hstart, List.flatten_cons, List.length_append, Nat.add_assoc]

/-- A text cut at a line start is a place of its chain. -/
theorem text_at (dir : Directory) (fc : FileChain) (bs : List Bytes) (a t : Bytes) (cs : List Bytes)
    (h : Holds dir 0 fc.files (bs ++ (a ++ t) :: cs)) (ha : a = [] ∨ a.getLast? = some lf) :
    ∃ f later, At dir fc (bs.flatten.length + a.length) f a t later cs := by
  obtain ⟨pre, f, later, hfiles, hpre, hstart, hdir, hsize, hne, hlater⟩ :=
    h.text_file dir 0 fc.files bs (a ++ t) cs
  rw [Nat.zero_add] at hstart
  refine ⟨f, later, ⟨pre, bs, hfiles, hpre, hstart⟩, hdir, hsize, hne, hlater, by rw [hstart], ?_⟩
  exact ha.elim .inl fun h => .inr (.inl h)

theorem linesOf_text (o : ℕ) (texts : List Bytes) (p : ℕ × Bytes) (hp : p ∈ linesOf o texts) :
    ∃ bs c cs, texts = bs ++ c :: cs ∧ p ∈ splitLines (o + bs.flatten.length) c := by
  induction texts generalizing o with
  | nil => exact absurd hp List.not_mem_nil
  | cons c cs ih =>
    cases List.mem_append.mp hp with
    | inl hp => exact ⟨[], c, cs, rfl, hp⟩
    | inr hp =>
      obtain ⟨bs, d, ds, hcs, hd⟩ := ih (o + c.length) hp
      refine ⟨c :: bs, d, ds, by rw [hcs, List.cons_append], ?_⟩
      rwa [List.flatten_cons, List.length_append, ← Nat.add_assoc]

/-- Every line of a chain stands at the start of a line. -/
theorem line_at (dir : Directory) (fc : FileChain) (texts : List Bytes) (h : Holds dir 0 fc.files texts)
    (p : ℕ × Bytes) (hp : p ∈ linesOf 0 texts) :
    ∃ f a t later cs, At dir fc p.1 f a t later cs ∧ firstLine t = p.2 ∧ (a = [] ∨ a.getLast? = some lf) := by
  obtain ⟨bs, c, cs, htexts, hline⟩ := linesOf_text 0 texts p hp
  obtain ⟨before, after, hc, hoff, hl, hb, ha⟩ := splitLines_position _ c p hline
  rw [htexts, hc, List.append_assoc] at h
  obtain ⟨f, later, hat⟩ := text_at dir fc bs before (p.2 ++ after) cs h hb
  rw [Nat.zero_add] at hoff
  rw [← hoff] at hat
  exact ⟨f, before, p.2 ++ after, later, cs, hat, firstLine_position p.2 after hl ha, hb⟩

/-- The text of a file, and what stands in front of it and behind it. -/
theorem Holds.file_text (dir : Directory) (o : ℕ) (pre : List ChainFile) (g : ChainFile)
    (post : List ChainFile) (texts : List Bytes) (h : Holds dir o (pre ++ g :: post) texts) :
    ∃ bs c cs, texts = bs ++ c :: cs ∧ Holds dir o pre bs ∧ g.start = o + bs.flatten.length ∧
    dir g.path = some c ∧
      g.size = c.length ∧ c ≠ [] ∧ Holds dir (g.start + g.size) post cs := by
  induction pre generalizing o texts with
  | nil =>
    cases h with
    | cons _ _ _ c cs start content size nonempty tail =>
      exact ⟨[], c, cs, rfl, .nil o, start, content, size, nonempty, by rw [start, size]; exact tail⟩
  | cons f pre ih =>
    cases h with
    | cons _ _ _ b ds start content size nonempty tail =>
      obtain ⟨bs, c, cs, hds, hpre, hstart, hdir, hsize, hne, hpost⟩ := ih (o + b.length) ds tail
      refine ⟨b :: bs, c, cs, by rw [hds, List.cons_append],
        .cons o f pre b bs start content size nonempty hpre, ?_, hdir, hsize, hne, hpost⟩
      rw [hstart, List.flatten_cons, List.length_append, Nat.add_assoc]

/-! ## The lines from a place on -/

section Place

variable (keeps : Bytes → Bool) (dir : Directory) (fc : FileChain)

theorem Holds.unique (o : ℕ) (files : List ChainFile) (cs ds : List Bytes) (hc : Holds dir o files cs)
    (hd : Holds dir o files ds) : cs = ds := by
  induction hc generalizing ds with
  | nil o =>
    cases hd
    rfl
  | cons o f fs c cs start content size nonempty tail ih =>
    cases hd with
    | cons _ _ _ d ds _ content' _ _ tail' =>
      have hcd : c = d := Option.some.inj (content.symm.trans content')
      subst hcd
      rw [ih ds tail']

theorem At.texts (texts : List Bytes) (hfc : Holds dir 0 fc.files texts) (o : ℕ) (f : ChainFile) (a t : Bytes)
    (later : List ChainFile) (cs : List Bytes) (h : At dir fc o f a t later cs) :
    ∃ bs, texts = bs ++ (a ++ t) :: cs ∧ f.start = bs.flatten.length := by
  obtain ⟨pre, bs, hfiles, hpre, hstart⟩ := h.files
  refine ⟨bs, ?_, hstart⟩
  have hhere : Holds dir (0 + bs.flatten.length) (f :: later) ((a ++ t) :: cs) := by
    rw [Nat.zero_add, ← hstart]
    exact .cons f.start f later (a ++ t) cs rfl h.content h.size h.nonempty (by rw [← h.size]; exact h.rest)
  have hall := Holds.append dir 0 pre (f :: later) bs ((a ++ t) :: cs) hpre hhere
  rw [← hfiles] at hall
  exact Holds.unique dir 0 fc.files texts _ hfc hall

/-- Nothing is kept of the lines in front of a place. -/
theorem kept_from (o : ℕ) (front back : List (ℕ × Bytes)) (hf : ∀ p ∈ front, p.1 + p.2.length ≤ o)
    (hb : ∀ p ∈ back, o ≤ p.1) :
    kept keeps (((front ++ back).filter fun p => decide (o ≤ p.1)).map token) =
      kept keeps (back.map token) := by
  have hback : back.filter (fun p => decide (o ≤ p.1)) = back :=
    List.filter_eq_self.mpr fun p hp => decide_eq_true (hb p hp)
  have hfront : kept keeps ((front.filter fun p => decide (o ≤ p.1)).map token) = [] := by
    unfold kept
    rw [List.filter_eq_nil_iff]
    intro q hq
    obtain ⟨p, hp, hpq⟩ := List.mem_map.mp hq
    obtain ⟨hmem, hge⟩ := List.mem_filter.mp hp
    have hle := hf p hmem
    have hge := of_decide_eq_true hge
    have hnil : p.2 = [] := List.length_eq_zero_iff.mp (by omega)
    rw [← hpq, token, hnil]
    exact Bool.false_ne_true
  rw [List.filter_append, List.map_append, kept_append, hback, hfront, List.nil_append]

/-- The lines of a chain in front of a place and behind it; the line a place is in is cut there only when
nothing of the file follows. -/
theorem At.lines_split (texts : List Bytes) (hfc : Holds dir 0 fc.files texts) (o : ℕ) (f : ChainFile)
    (a t : Bytes) (later : List ChainFile) (cs : List Bytes) (h : At dir fc o f a t later cs) :
    ∃ front, (∀ p ∈ front, p.1 + p.2.length ≤ o) ∧
      (linesOf 0 texts = front ++ (splitLines o t ++ linesOf (o + t.length) cs) ∨
        t = [] ∧ linesOf 0 texts = front ++ linesOf (o + t.length) cs) := by
  obtain ⟨bs, htexts, hstart⟩ := h.texts dir fc texts hfc o f a t later cs
  have hoff : o = bs.flatten.length + a.length := by rw [h.offset, hstart]
  have hbefore : ∀ p ∈ linesOf 0 bs, p.1 + p.2.length ≤ o := by
    intro p hp
    have := linesOf_bounds 0 bs p hp
    omega
  have hend : bs.flatten.length + (a ++ t).length = o + t.length := by rw [List.length_append]; omega
  rw [htexts, linesOf_append, linesOf, Nat.zero_add, hend]
  cases h.boundary with
  | inl ha =>
    rw [ha, List.length_nil, Nat.add_zero] at hoff
    refine ⟨linesOf 0 bs, hbefore, .inl ?_⟩
    rw [ha, List.nil_append, ← hoff]
  | inr h' =>
    cases h' with
    | inl ha =>
      obtain ⟨a', ha'⟩ : ∃ a', a = a' ++ [lf] :=
        ⟨a.dropLast, (List.dropLast_append_getLast? lf (by simp [ha])).symm⟩
      have hlen : a.length = a'.length + 1 := by rw [ha', List.length_append]; rfl
      refine ⟨linesOf 0 bs ++ splitLines bs.flatten.length a', ?_, .inl ?_⟩
      · intro p hp
        cases List.mem_append.mp hp with
        | inl hp => exact hbefore p hp
        | inr hp =>
          have := splitLines_bounds _ a' p hp
          omega
      · rw [ha', List.append_assoc, List.singleton_append, splitLines_append_lf, ← hlen, ← hoff]
        simp only [List.append_assoc]
    | inr ht =>
      refine ⟨linesOf 0 bs ++ splitLines bs.flatten.length (a ++ t), ?_, .inr ⟨ht, ?_⟩⟩
      · intro p hp
        cases List.mem_append.mp hp with
        | inl hp => exact hbefore p hp
        | inr hp =>
          have := splitLines_bounds _ (a ++ t) p hp
          rw [ht, List.append_nil] at this
          omega
      · simp only [List.append_assoc]

/-- The lines kept from a place on. -/
theorem At.kept_linesFrom (sink : Sink) (hfc : fc = newFileChain (fun _ => dir) sink) (o : ℕ)
    (f : ChainFile) (a t : Bytes) (later : List ChainFile) (cs : List Bytes) (h : At dir fc o f a t later cs) :
    kept keeps (linesFrom dir sink o) = kept keeps
    ((splitLines o t ++ linesOf (o + t.length) cs).map token) := by
  obtain ⟨front, hfront, hsplit⟩ :=
    h.lines_split dir fc (chainTexts dir sink) (by rw [hfc]; exact newFileChain_holds dir sink) o f a t later cs
  have hback : ∀ p ∈ splitLines o t ++ linesOf (o + t.length) cs, o ≤ p.1 := by
    intro p hp
    cases List.mem_append.mp hp with
    | inl hp => exact (splitLines_bounds o t p hp).1
    | inr hp =>
      have := linesOf_bounds (o + t.length) cs p hp
      omega
  unfold linesFrom chainLines
  cases hsplit with
  | inl hs => rw [hs, kept_from keeps o front _ hfront hback]
  | inr hs =>
    rw [hs.2, kept_from keeps o front _ hfront (fun p hp => hback p (List.mem_append_right _ hp)),
      List.map_append, kept_append, hs.1]
    rfl

/-- A place at the end of a file is the start of the next one, where a read begins. -/
theorem At.settle (o : ℕ) (f : ChainFile) (a t : Bytes) (later : List ChainFile) (cs : List Bytes)
    (h : At dir fc o f a t later cs) :
    ∃ f' a' t' later' cs', At dir fc o f' a' t' later' cs' ∧ (t' ≠ [] ∨ later' = []) := by
  by_cases ht : t = []
  · cases later with
    | nil => exact ⟨f, a, t, [], cs, h, .inr rfl⟩
    | cons g later =>
      subst ht
      obtain ⟨c, ds, -, hg⟩ := h.next_file dir fc o f g a later cs
      exact ⟨g, [], c, later, ds, hg, .inl hg.nonempty⟩
  · exact ⟨f, a, t, later, cs, h, .inl ht⟩

theorem At.window_eq (o : ℕ) (f : ChainFile) (a t : Bytes) (later : List ChainFile) (cs : List Bytes)
    (h : At dir fc o f a t later cs) : window (a ++ t) f a.length = t := by
  unfold window
  rw [List.drop_left, h.size, List.length_append, Nat.add_sub_cancel_left, List.take_length]

theorem At.fileTokens_eq (o : ℕ) (f : ChainFile) (a t : Bytes) (later : List ChainFile) (cs : List Bytes)
    (h : At dir fc o f a t later cs) : fileTokens dir f a.length = scanTokens t := by
  unfold fileTokens
  rw [h.content]
  simp only [h.window_eq dir fc o f a t later cs]

theorem At.file_end (o : ℕ) (f : ChainFile) (a t : Bytes) (later : List ChainFile) (cs : List Bytes)
    (h : At dir fc o f a t later cs) : f.start + f.size = o + t.length := by
  rw [h.size, h.offset, List.length_append, Nat.add_assoc]

/-- What a read at a place sees. -/
theorem At.seesAt_eq (texts : List Bytes) (hfc : Holds dir 0 fc.files texts)
    (htotal : fc.total = texts.flatten.length) (o : ℕ) (f : ChainFile) (a t : Bytes)
    (later : List ChainFile) (cs : List Bytes) (h : At dir fc o f a t later cs) (hl : t ≠ [] ∨ later = []) :
    seesAt dir fc o = placed (o + t.length) o (scanTokens t) ++ sees dir later 0 := by
  obtain ⟨i, hplace, hdrop⟩ := h.fileAt_eq dir fc texts hfc htotal o f a t later cs hl
  rw [seesAt, hplace]
  simp only [hdrop]
  rw [sees, h.fileTokens_eq dir fc o f a t later cs, h.file_end dir fc o f a t later cs, ← h.offset]

end Place

/-! ## Reads anywhere -/

theorem placed_ge (fileEnd cur : ℕ) (toks : List Bytes) (h : cur ≤ fileEnd) :
    ∀ p ∈ placed fileEnd cur toks, cur ≤ p.1 := by
  induction toks generalizing cur with
  | nil => exact fun p hp => absurd hp List.not_mem_nil
  | cons raw toks ih =>
    intro p hp
    cases List.mem_cons.mp hp with
    | inl hp =>
      rw [hp]
    | inr hp =>
      have hstep : cur ≤ step fileEnd cur raw ∧ step fileEnd cur raw ≤ fileEnd := by
        unfold step
        omega
      have := ih _ hstep.2 p hp
      omega

theorem sees_ge (dir : Directory) (o : ℕ) (files : List ChainFile) (texts : List Bytes)
    (h : Holds dir o files texts) :
    ∀ p ∈ sees dir files 0, o ≤ p.1 := by
  induction h with
  | nil o => exact fun p hp => absurd hp List.not_mem_nil
  | cons o f fs c cs start content size nonempty tail ih =>
    intro p hp
    cases List.mem_append.mp hp with
    | inl hp =>
      have := placed_ge _ _ _ (by omega) p hp
      omega
    | inr hp =>
      have := ih p hp
      omega

section Anywhere

variable (dir : Directory) (fc : FileChain) (texts : List Bytes)
variable (hfc : Holds dir 0 fc.files texts) (htotal : fc.total = texts.flatten.length)

include hfc htotal in
/-- What a read inside a file sees. -/
theorem seesAt_inside (pre : List ChainFile) (g : ChainFile) (post : List ChainFile)
    (hfiles : fc.files = pre ++ g :: post) (n : ℕ) (hn : n < g.size) :
    seesAt dir fc (g.start + n) = sees dir (g :: post) n := by
  have hholds := hfc
  rw [hfiles] at hholds
  obtain ⟨bs, c, cs, -, hpre, hstart, -, -, -, -⟩ := hholds.file_text dir 0 pre g post texts
  rw [Nat.zero_add] at hstart
  have hend := hfc.end_le dir 0 _ texts g (by rw [hfiles]; simp)
  rw [seesAt, fileAt_inside dir fc pre g post bs hfiles hpre hstart n hn (by omega), hfiles]
  simp only [List.drop_left]

include hfc in
/-- At and behind the end there is nothing. -/
theorem seesAt_end (o : ℕ) (ho : fc.total ≤ o) : seesAt dir fc o = [] := by
  cases fc.files.eq_nil_or_concat with
  | inl hnil =>
    rw [seesAt, hnil, List.drop_nil]
    rfl
  | inr hconcat =>
    obtain ⟨pre, f, hf⟩ := hconcat
    rw [List.concat_eq_append] at hf
    have hholds := hfc
    rw [hf] at hholds
    obtain ⟨-, c, -, -, -, -, hdir, hsize, -, -⟩ := hholds.file_text dir 0 pre f [] texts
    rw [seesAt, fileAt_end fc pre f hf o ho, hf]
    simp only [List.drop_left]
    rw [sees]
    unfold fileTokens window
    rw [hdir]
    simp only [Nat.sub_self, List.take_zero]
    rfl

include hfc htotal in
/-- Nothing in front of the offset is seen. -/
theorem seesAt_ge (o : ℕ) : ∀ p ∈ seesAt dir fc o, o ≤ p.1 := by
  intro p hp
  by_cases hin : o < fc.total
  · obtain ⟨pre, f, later, bs, c, ds, n, hfiles, -, -, hstart, -, hsize, ho, hn⟩ :=
      hfc.place dir 0 _ texts o (by omega)
    have hoff : o = f.start + n := by omega
    rw [hoff, seesAt_inside dir fc texts hfc htotal pre f later hfiles n (by omega)] at hp
    have hholds := hfc
    rw [hfiles] at hholds
    obtain ⟨-, -, es, -, -, -, -, -, -, hlater⟩ := hholds.file_text dir 0 pre f later texts
    cases List.mem_append.mp hp with
    | inl hp =>
      have := placed_ge _ _ _ (by omega) p hp
      omega
    | inr hp =>
      have := sees_ge dir _ later es hlater p hp
      omega
  · rw [seesAt_end dir fc texts hfc o (by omega)] at hp
    exact absurd hp List.not_mem_nil

end Anywhere

end Minilog.Viewer
