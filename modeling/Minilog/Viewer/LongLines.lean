import Minilog.Viewer.LineEnds

/-! Lines that are too long for the viewer.

`ReadBackward` drops such a line by itself. The scanner of `ReadForward` and `Search` gives up its whole file
at the first of them, and its limit is one byte lower. `longLines_alike_iff` says for which files the three
still agree. -/
namespace Minilog.Viewer
open Lib
set_option autoImplicit false

/-- The texts a reader owes for some lines: the lines that are not too long, stripped, when not blank and
wanted. -/
def owed (strip : Bytes → Bytes) (keeps : Bytes → Bool) (lines : List Bytes) : List Bytes :=
  ((lines.filter fun l => decide (l.length ≤ maxLineBytes)).map strip).filter fun l => !l.isEmpty && keeps l

/-- The tokens a forward read reports. -/
def shown (keeps : Bytes → Bool) (t : Bytes) : List Bytes :=
  (scanTokens t).filter fun l => !l.isEmpty && keeps l

/-- The lines at and behind an offset, and those in front of it. -/
def textsFrom (dir : Directory) (sink : Sink) (o : ℕ) : List Bytes :=
  ((chainLines dir sink).filter fun p => decide (o ≤ p.1)).map Prod.snd

def textsBefore (dir : Directory) (sink : Sink) (o : ℕ) : List Bytes :=
  ((chainLines dir sink).filter fun p => decide (p.1 < o)).map Prod.snd

/-- Every read path skips the lines that are too long one by one and reaches all others; paging forward ends. -/
structure LongLinesAlike (dir : Directory) (sink : Sink) : Prop where
  forward : ∀ (lower : Bytes → Bytes) (filter : Filter) (count maxResponseBytes : ℕ), 1 ≤ count →
    ∀ start ∈ chainLines dir sink,
      ((newFileChain (fun _ => dir) sink).readForward
        (fun _ => dir) lower maxResponseBytes start.1 count filter).lines =
          greedy List.length count maxResponseBytes
        (owed dropCR (filter.matches lower) (textsFrom dir sink start.1))
  paging : ∀ (lower : Bytes → Bytes) (filter : Filter) (count maxResponseBytes : ℕ), 1 ≤ count →
    ∀ start ∈ chainLines dir sink, ∃ pages,
      Paging (fun o => (newFileChain (fun _ => dir) sink).readForward
        (fun _ => dir) lower maxResponseBytes o count filter)
        Page.entries Page.nextOffset start.1 pages ∧
      (owed dropCR (filter.matches lower) (textsFrom dir sink start.1)).Sublist
      (pages.flatMap fun p => p.2.lines)
  search : ∀ (lower : Bytes → Bytes) (filter : Filter) (q : Bytes) (limit : ℕ) (since : ℤ), since < 0 →
    ((newFileChain (fun _ => dir) sink).search (fun _ => dir) lower q limit filter since).totalMatches =
      ((owed dropCR (filter.matches lower) (textsFrom dir sink 0)).filter fun l =>
        contains (lower l) (lower q)).length
  backward : ∀ (lower : Bytes → Bytes) (filter : Filter) (count maxResponseBytes o : ℕ) (since : ℤ), since < 0 →
    LineStart o (chainTexts dir sink) →
    ((newFileChain (fun _ => dir) sink).readBackward
      (fun _ => dir) lower maxResponseBytes o count filter since).lines =
        (greedy List.length count maxResponseBytes
          (owed trimRightCR (filter.matches lower) (textsBefore dir sink o)).reverse).reverse

/-- No line has exactly `maxLineBytes` bytes, and behind a longer one there are only blank and longer ones. -/
def LongLinesLast (c : Bytes) : Prop :=
  (∀ l ∈ scanLines c, l.length ≠ maxLineBytes) ∧
    (scanLines c).Pairwise fun l m => maxLineBytes < l.length → dropCR m = [] ∨ maxLineBytes < m.length

/-! ## What is owed and what is shown -/

section Owed

variable (strip : Bytes → Bytes) (keeps : Bytes → Bool)

theorem owed_append (a b : List Bytes) : owed strip keeps (a ++ b) = owed strip keeps a ++
    owed strip keeps b := by
  unfold owed
  rw [List.filter_append, List.map_append, List.filter_append]

theorem owed_cons (l : Bytes) (ls : List Bytes) :
    owed strip keeps (l :: ls) = owed strip keeps [l] ++ owed strip keeps ls :=
  owed_append strip keeps [l] ls

theorem owed_blank (hstrip : strip [] = []) (ls : List Bytes) (h : ∀ l ∈ ls, l = []) :
    owed strip keeps ls = [] := by
  unfold owed
  rw [List.filter_eq_nil_iff]
  intro x hx
  obtain ⟨l, hl, hlx⟩ := List.mem_map.mp hx
  rw [← hlx, h l (List.mem_filter.mp hl).1, hstrip]
  exact Bool.false_ne_true

/-- The last piece of a text that ends at a line end is blank, and a scanner does not yield it. -/
theorem owed_splitLines (hstrip : strip [] = []) (o : ℕ) (t : Bytes) :
    owed strip keeps ((splitLines o t).map Prod.snd) = owed strip keeps (scanLines t) := by
  induction hn : t.length using Nat.strongRecOn generalizing t o with
  | ind n ih =>
    cases lines_cases t with
    | inl hnil =>
      rw [hnil]
      exact owed_blank strip keeps hstrip _ fun l hl => List.mem_singleton.mp hl
    | inr h =>
      cases h with
      | inl h => rw [splitLines_unterminated o t h.2, scanLines_unterminated t h.1 h.2]; rfl
      | inr h =>
        obtain ⟨l, s, hl, rfl⟩ := h
        have hrest := ih s.length (by rw [← hn, List.length_append, List.length_cons]; omega)
          (o + (l.length + 1)) s rfl
        rw [splitLines_terminated o l s hl, scanLines_terminated l s hl, List.map_cons, owed_cons, hrest,
          owed_cons _ _ l (scanLines s)]

theorem owed_linesOf (hstrip : strip [] = []) (o : ℕ) (texts : List Bytes) :
    owed strip keeps ((linesOf o texts).map Prod.snd) = texts.flatMap fun c =>
    owed strip keeps (scanLines c) := by
  induction texts generalizing o with
  | nil => rfl
  | cons c cs ih =>
    rw [linesOf, List.map_append, owed_append, owed_splitLines strip keeps hstrip, ih, List.flatMap_cons]

end Owed

section Shown

variable (keeps : Bytes → Bool)

theorem kept_texts (l : List (ℕ × Bytes)) : (kept keeps l).map Prod.snd = (l.map Prod.snd).filter fun t =>
    !t.isEmpty && keeps t := by
  unfold kept
  rw [List.filter_map]
  rfl

theorem kept_placed_texts (fileEnd cur : ℕ) (t : Bytes) :
    (kept keeps (placed fileEnd cur (scanTokens t))).map Prod.snd = shown keeps t := by
  rw [kept_texts, placed_texts, shown]

theorem kept_sees_texts (dir : Directory) (o : ℕ) (files : List ChainFile) (texts : List Bytes)
    (h : Holds dir o files texts) :
    (kept keeps (sees dir files 0)).map Prod.snd = texts.flatMap (shown keeps) := by
  induction h with
  | nil o => rfl
  | cons o f fs c cs start content size nonempty tail ih =>
    have htoks : fileTokens dir f 0 = scanTokens c := by
      unfold fileTokens window
      rw [content]
      simp only [List.drop_zero, size, Nat.sub_zero, List.take_length]
    rw [sees, kept_append, List.map_append, ih, htoks, kept_placed_texts, List.flatMap_cons]

/-- What a scanner shows of a file is the front of what is owed; it is all of it when nothing is owed behind
the first line that is too long for the scanner. -/
theorem owed_eq_shown (t : Bytes) :
    owed dropCR keeps (scanLines t) =
      shown keeps t ++ owed dropCR keeps ((scanLines t).dropWhile fun l =>
        decide (l.length < maxLineBytes)) := by
  have hfront : ∀ l ∈ (scanLines t).takeWhile (fun l => decide (l.length < maxLineBytes)),
      l.length ≤ maxLineBytes := by
    intro l hl
    have hlt := List.mem_takeWhile_imp hl
    exact Nat.le_of_lt (of_decide_eq_true hlt)
  have hshown : owed dropCR keeps ((scanLines t).takeWhile fun l => decide (l.length < maxLineBytes)) =
      shown keeps t := by
    unfold owed shown scanTokens
    rw [List.filter_eq_self.mpr fun l hl => decide_eq_true (hfront l hl)]
  rw [← hshown, ← owed_append, List.takeWhile_append_dropWhile]

theorem LongLinesLast.shown_eq (t : Bytes) (h : LongLinesLast t) :
    shown keeps t = owed dropCR keeps (scanLines t) := by
  rw [owed_eq_shown]
  suffices hnone : owed dropCR keeps ((scanLines t).dropWhile fun l => decide (l.length < maxLineBytes)) = [] by
    rw [hnone, List.append_nil]
  cases hd : (scanLines t).dropWhile (fun l => decide (l.length < maxLineBytes)) with
  | nil => rfl
  | cons l back =>
    have hsub : (l :: back).Sublist (scanLines t) := by
      rw [← hd]
      exact List.dropWhile_sublist _
    have hfirst : ¬ l.length < maxLineBytes := by
      have hne : (scanLines t).dropWhile (fun l => decide (l.length < maxLineBytes)) ≠ [] := by
        rw [hd]; exact List.cons_ne_nil _ _
      have := List.head_dropWhile_not (fun l : Bytes => decide (l.length < maxLineBytes)) hne
      simp only [hd, List.head_cons, decide_eq_false_iff_not] at this
      exact this
    have hlong : maxLineBytes < l.length := by
      have := h.1 l (hsub.subset List.mem_cons_self)
      omega
    have hback := (List.pairwise_cons.mp (h.2.sublist hsub)).1
    unfold owed
    rw [List.filter_eq_nil_iff]
    intro x hx
    obtain ⟨m, hm, hmx⟩ := List.mem_map.mp hx
    obtain ⟨hm, hshort⟩ := List.mem_filter.mp hm
    have hshort := of_decide_eq_true hshort
    cases List.mem_cons.mp hm with
    | inl hm =>
      rw [hm] at hshort
      omega
    | inr hm =>
      have hblank := (hback m hm hlong).resolve_right (by omega)
      rw [← hmx, hblank]
      exact Bool.false_ne_true

end Shown

/-! ## Paging forward -/

/-- Bytes cut off in front make no line longer. -/
theorem scanLines_drop (n : ℕ) (p : Bytes) : ∀ l ∈ scanLines (p.drop n), ∃ m ∈ scanLines p,
    l.length ≤ m.length := by
  induction n generalizing p with
  | zero => exact fun l hl => ⟨l, hl, Nat.le_refl _⟩
  | succ n ih =>
    intro l hl
    cases p with
    | nil => exact absurd hl List.not_mem_nil
    | cons c p =>
      obtain ⟨m, hm, hle⟩ := ih p l hl
      rw [scanLines]
      split
      · exact ⟨m, List.mem_cons_of_mem _ hm, hle⟩
      · cases hp : scanLines p with
        | nil =>
          rw [hp] at hm
          exact absurd hm List.not_mem_nil
        | cons k ks =>
          rw [hp] at hm
          cases List.mem_cons.mp hm with
          | inl hm => exact ⟨c :: k, List.mem_cons_self, by rw [List.length_cons, ← hm]; omega⟩
          | inr hm => exact ⟨m, List.mem_cons_of_mem _ hm, hle⟩

/-- A scan that starts in the middle of the lines `p` comes to what is behind them. -/
theorem scanTokens_drop (n : ℕ) (p s : Bytes) (hp : p = [] ∨ p.getLast? = some lf ∨ s = [])
    (hlen : ∀ l ∈ scanLines p, l.length < maxLineBytes) :
    ∃ extra, scanTokens (p.drop n ++ s) = extra ++ scanTokens s := by
  by_cases hs : s = []
  · rw [hs]
    exact ⟨scanTokens (p.drop n ++ []), (List.append_nil _).symm⟩
  · refine ⟨scanTokens (p.drop n), scanTokens_append (p.drop n) s ?_ ?_⟩
    · cases hp with
      | inl hp => exact .inl (by rw [hp, List.drop_nil])
      | inr hp =>
        have hlast := hp.resolve_right hs
        by_cases hn : n < p.length
        · exact .inr (by rw [List.getLast?_drop, if_neg (by omega), hlast])
        · exact .inl (List.drop_eq_nil_of_le (by omega))
    · intro l hl
      obtain ⟨m, hm, hle⟩ := scanLines_drop n p l hl
      have := hlen m hm
      omega

section Cover

variable (keeps : Bytes → Bool) (dir : Directory) (fc : FileChain) (texts : List Bytes)
variable (hfc : Holds dir 0 fc.files texts) (htotal : fc.total = texts.flatten.length)

include hfc in
/-- The file a page leaves its cursor in: `p` is what the page scanned of it, maybe not all of it counted, and
`s` is left. -/
theorem Leaves.cursor (before files : List ChainFile) (hfiles : fc.files = before ++ files) (phys next : ℕ)
    (left : List (ℕ × Bytes)) (h : Leaves keeps dir files phys next left) :
    ∃ pre g post c ph p s cs, files = pre ++ g :: post ∧ (pre = [] ∧ ph = phys ∨ pre ≠ [] ∧ ph = 0) ∧
    dir g.path = some c ∧
      g.size = c.length ∧ ph ≤ c.length ∧ c.drop ph = p ++ s ∧ (p = [] ∨ p.getLast? = some lf ∨ s = []) ∧
      (∀ l ∈ scanLines p, l.length < maxLineBytes) ∧ g.start + ph < next ∧ next ≤ g.start + ph + p.length ∧
      Holds dir (g.start + g.size) post cs ∧ left.map Prod.snd = shown keeps s ++
      (kept keeps (sees dir post 0)).map Prod.snd := by
  obtain ⟨pre, g, post, ph, done, rest, hsplit, hph, htoks, hdone, hnext, hleft⟩ := h.place
  have hg : fc.files = (before ++ pre) ++ g :: post := by rw [hfiles, hsplit, List.append_assoc]
  have hholds := hfc
  rw [hg] at hholds
  obtain ⟨bs, c, cs, -, -, -, hdir, hsize, -, hpost⟩ := hholds.file_text dir 0 _ g post texts
  unfold fileTokens window at htoks
  rw [hdir] at htoks
  simp only [hsize] at htoks
  rw [← List.length_drop, List.take_length] at htoks
  have hin : ph < c.length := by
    by_contra hout
    rw [List.drop_eq_nil_of_le (by omega)] at htoks
    exact hdone (List.append_eq_nil_iff.mp htoks.symm).1
  have hend : g.start + g.size = g.start + ph + (c.drop ph).length := by
    rw [List.length_drop]
    omega
  obtain ⟨p, s, hps, hbound, hrest, hshort, -, hlt, hle, -⟩ :=
    placedEnd_split done rest (c.drop ph) (g.start + ph) (g.start + ph) (Nat.le_refl _) htoks
  rw [← hend, ← hnext] at hle hlt
  refine ⟨pre, g, post, c, ph, p, s, cs, hsplit, hph, hdir, hsize, Nat.le_of_lt hin, hps, hbound, hshort,
    hlt hdone, hle, hpost, ?_⟩
  rw [hleft, List.map_append, kept_texts, placed_texts, shown, hrest]

include hfc htotal in
/-- Where a page ends, a read comes to everything the page left, maybe after some of it again. -/
theorem Leaves.covers (before files : List ChainFile) (hfiles : fc.files = before ++ files) (phys next : ℕ)
    (left : List (ℕ × Bytes)) (h : Leaves keeps dir files phys next left) :
    ∃ extra, (kept keeps (seesAt dir fc next)).map Prod.snd = extra ++ left.map Prod.snd := by
  obtain ⟨pre, g, post, c, ph, p, s, cs, hsplit, -, hdir, hsize, hph, hps, hbound, hshort, hlt, hle, hpost,
      hleft⟩ :=
    h.cursor keeps dir fc texts hfc before files hfiles phys next left
  have hg : fc.files = (before ++ pre) ++ g :: post := by rw [hfiles, hsplit, List.append_assoc]
  have hlen : c.length - ph = p.length + s.length := by rw [← List.length_drop, hps, List.length_append]
  rw [hleft]
  by_cases hinside : next < g.start + g.size
  · -- the cursor is still in the file: what is scanned again are lines of `p`
    obtain ⟨n, hn⟩ : ∃ n, next = g.start + (ph + n) := ⟨next - (g.start + ph), by omega⟩
    obtain ⟨extra, hextra⟩ := scanTokens_drop n p s hbound hshort
    have hwindow : window c g (ph + n) = p.drop n ++ s := by
      unfold window
      rw [hsize, ← List.length_drop, List.take_length, ← List.drop_drop, hps,
        List.drop_append_of_le_length (by omega)]
    refine ⟨extra.filter fun t => !t.isEmpty && keeps t, ?_⟩
    rw [hn, seesAt_inside dir fc texts hfc htotal _ g post hg (ph + n) (by omega), sees, kept_append,
      List.map_append, kept_texts, placed_texts]
    unfold fileTokens
    rw [hdir]
    simp only [hwindow]
    rw [hextra, List.filter_append, List.append_assoc, shown]
  · have hs : s = [] := List.length_eq_zero_iff.mp (by omega)
    rw [hs]
    cases post with
    | nil => exact ⟨_, (List.append_nil _).symm⟩
    | cons g' post' =>
      have hnext : next = g'.start + 0 := by
        cases hpost with
        | cons _ _ _ _ _ start _ _ _ _ =>
          rw [start]
          omega
      have hpos : 0 < g'.size := by
        cases hpost with
        | cons _ _ _ c' _ _ _ size nonempty _ =>
          rw [size]
          exact List.length_pos_iff.mpr nonempty
      refine ⟨[], ?_⟩
      rw [hnext, seesAt_inside dir fc texts hfc htotal (before ++ pre ++ [g]) g' post'
        (by rw [hg]; simp) 0 hpos]
      rfl

include hfc in
/-- A cursor that a page leaves is behind the place the page was read at. -/
theorem Leaves.progress (before : List ChainFile) (f : ChainFile) (later : List ChainFile)
    (hfiles : fc.files = before ++ f :: later) (n next : ℕ) (hn : n < f.size) (left : List (ℕ × Bytes))
    (h : Leaves keeps dir (f :: later) n next left) :
    f.start + n < next := by
  obtain ⟨pre, g, post, c, ph, p, s, cs, hsplit, hph, -, -, -, -, -, -, hlt, -, -, -⟩ :=
    h.cursor keeps dir fc texts hfc before (f :: later) hfiles n next left
  cases hph with
  | inl hhere =>
    rw [hhere.1, List.nil_append] at hsplit
    rw [(List.cons.inj hsplit).1, ← hhere.2]
    exact hlt
  | inr hlater =>
    obtain ⟨f', pre', hpre⟩ := List.exists_cons_of_ne_nil hlater.1
    rw [hpre, List.cons_append] at hsplit
    have hholds := hfc
    rw [hfiles] at hholds
    obtain ⟨-, -, ds, -, -, -, -, -, -, hrest⟩ := hholds.file_text dir 0 before f later texts
    rw [(List.cons.inj hsplit).2] at hrest
    obtain ⟨es, -, -, -, -, hstart, -⟩ := hrest.file_text dir _ pre' g post ds
    omega

include hfc htotal in
/-- The client's loop from any offset ends, and its pages hold all that a read there sees. -/
theorem forward_cover (lower : Bytes → Bytes) (filter : Filter) (hkeeps : keeps = filter.matches lower)
    (count budget : ℕ) (hcount : 1 ≤ count) (x : ℕ) :
    ∃ pages, Paging (fun o => fc.readForward (fun _ => dir) lower budget o count filter) Page.entries
    Page.nextOffset x pages ∧
      ((kept keeps (seesAt dir fc x)).map Prod.snd).Sublist (pages.flatMap fun p => p.2.lines) := by
  induction hm : fc.total - x using Nat.strongRecOn generalizing x with
  | ind m ih =>
    obtain ⟨left, hentries, hls, -, hsplit, -, hleave⟩ :=
      readForward_tokens keeps count budget dir fc lower filter hkeeps hcount x
    by_cases hnone : (fc.readForward (fun _ => dir) lower budget x count filter).entries = []
    · have hempty := (greedy_eq_nil weight count budget hcount _).mp (hentries.symm.trans hnone)
      refine ⟨[], .done x hnone, ?_⟩
      rw [hempty]
      exact List.Sublist.refl []
    · have hleaves := hleave hnone
      have hx : x < fc.total := by
        by_contra hout
        apply hnone
        rw [hentries, greedy_eq_nil weight count budget hcount]
        rw [seesAt_end dir fc texts hfc x (by omega)]
        rfl
      obtain ⟨pre, f, later, bs, c, ds, n, hfiles, -, hpre, hstart, -, hsize, hxn, hn⟩ :=
        hfc.place dir 0 _ texts x (by omega)
      have hoff : x = f.start + n := by omega
      have hplace : fc.fileAt x = (pre.length, n) := by
        have hend := hfc.end_le dir 0 _ texts f (by rw [hfiles]; simp)
        rw [Nat.zero_add] at hstart
        rw [hoff]
        exact fileAt_inside dir fc pre f later bs hfiles hpre hstart n (by omega) (by omega)
      rw [hplace, hfiles] at hleaves
      simp only [List.drop_left] at hleaves
      have hlt := Leaves.progress keeps dir fc texts hfc pre f later hfiles n _ (by omega) left hleaves
      obtain ⟨extra, hextra⟩ := Leaves.covers keeps dir fc texts hfc htotal pre
        (f :: later) hfiles n _ left hleaves
      obtain ⟨pages, hpaging, hsub⟩ :=
        ih (fc.total - (fc.readForward (fun _ => dir) lower budget x count filter).nextOffset) (by omega) _ rfl
      refine ⟨_, .more x pages hnone hpaging, ?_⟩
      rw [hextra] at hsub
      rw [hsplit, List.map_append, List.flatMap_cons, hls]
      exact (List.Sublist.refl _).append ((List.sublist_append_right extra _).trans hsub)

end Cover

/-! ## The three paths -/

theorem LongLinesLast.suffix (a t : Bytes) (ha : a = [] ∨ a.getLast? = some lf ∨ t = [])
    (h : LongLinesLast (a ++ t)) :
    LongLinesLast t := by
  have hsub : (scanLines t).Sublist (scanLines (a ++ t)) := by
    by_cases ht : t = []
    · rw [ht]
      exact List.nil_sublist _
    · have hstart : AtLineStart a := ha.elim .inl fun ha => .inr (ha.resolve_right ht)
      rw [scanLines_append a t hstart]
      exact List.sublist_append_right _ _
  exact ⟨fun l hl => h.1 l (hsub.subset hl), h.2.sublist hsub⟩

section Paths

variable (dir : Directory) (sink : Sink) (hlast : ∀ c ∈ chainTexts dir sink, LongLinesLast c)

/-- What is owed from a place on. -/
theorem At.owed_textsFrom (strip : Bytes → Bytes) (keeps : Bytes → Bool) (hstrip : strip [] = [])
    (fc : FileChain) (hfc : fc = newFileChain (fun _ => dir) sink) (o : ℕ) (f : ChainFile) (a t : Bytes)
    (later : List ChainFile) (cs : List Bytes) (h : At dir fc o f a t later cs) :
    owed strip keeps (textsFrom dir sink o) = owed strip keeps (scanLines t) ++ cs.flatMap fun c =>
    owed strip keeps (scanLines c) := by
  obtain ⟨front, hfront, hsplit⟩ :=
    h.lines_split dir fc (chainTexts dir sink) (by rw [hfc]; exact newFileChain_holds dir sink) o f a t later cs
  have hnone : owed strip keeps ((front.filter fun p => decide (o ≤ p.1)).map Prod.snd) = [] := by
    apply owed_blank strip keeps hstrip
    intro l hl
    obtain ⟨p, hp, hpl⟩ := List.mem_map.mp hl
    obtain ⟨hmem, hge⟩ := List.mem_filter.mp hp
    have hge := of_decide_eq_true hge
    have hle := hfront p hmem
    rw [← hpl]
    exact List.length_eq_zero_iff.mp (by omega)
  have hhere : (splitLines o t).filter (fun p => decide (o ≤ p.1)) = splitLines o t :=
    List.filter_eq_self.mpr fun p hp => decide_eq_true (splitLines_bounds o t p hp).1
  have hlater : (linesOf (o + t.length) cs).filter (fun p => decide (o ≤ p.1)) = linesOf (o + t.length) cs :=
    List.filter_eq_self.mpr fun p hp => decide_eq_true (by have := linesOf_bounds (o + t.length) cs p hp; omega)
  rw [← owed_splitLines strip keeps hstrip o t, ← owed_linesOf strip keeps hstrip (o + t.length) cs]
  unfold textsFrom chainLines
  cases hsplit with
  | inl hs =>
    rw [hs, List.filter_append, List.filter_append, hhere, hlater, List.map_append, List.map_append,
      owed_append, owed_append, hnone, List.nil_append]
  | inr hs =>
    have hend : owed strip keeps ((splitLines o t).map Prod.snd) = [] := by
      rw [hs.1]
      exact owed_blank strip keeps hstrip _ fun l hl => List.mem_singleton.mp hl
    rw [hs.2, List.filter_append, hlater, List.map_append, owed_append, hnone, hend]

include hlast in
/-- A read at a line start shows what is owed. -/
theorem seesAt_owed (keeps : Bytes → Bool) (start : ℕ × Bytes) (hstart : start ∈ chainLines dir sink) :
    (kept keeps (seesAt dir (newFileChain (fun _ => dir) sink) start.1)).map Prod.snd =
      owed dropCR keeps (textsFrom dir sink start.1) := by
  have hholds := newFileChain_holds dir sink
  have htotal := newFileChain_total dir sink
  obtain ⟨f₀, a₀, t₀, later₀, cs₀, hat₀, -, -⟩ := line_at dir _ _ hholds start hstart
  obtain ⟨f, a, t, later, cs, hat, hl⟩ := hat₀.settle dir _ start.1 f₀ a₀ t₀ later₀ cs₀
  obtain ⟨bs, htexts, -⟩ := hat.texts dir _ _ hholds start.1 f a t later cs
  have ht : LongLinesLast t := LongLinesLast.suffix a t hat.boundary (hlast (a ++ t) (by rw [htexts]; simp))
  have hcs : cs.flatMap (shown keeps) = cs.flatMap fun c => owed dropCR keeps (scanLines c) := by
    apply List.flatMap_congr
    intro c hc
    exact LongLinesLast.shown_eq keeps c (hlast c (by rw [htexts]; simp [hc]))
  rw [hat.seesAt_eq dir _ _ hholds htotal start.1 f a t later cs hl, kept_append, List.map_append,
    kept_placed_texts, kept_sees_texts keeps dir _ later cs hat.rest,
    hat.owed_textsFrom dir sink dropCR keeps rfl _ rfl start.1 f a t later cs,
    LongLinesLast.shown_eq keeps t ht, hcs]

theorem owed_chain (strip : Bytes → Bytes) (keeps : Bytes → Bool) (hstrip : strip [] = []) :
    owed strip keeps (textsFrom dir sink 0) = (chainTexts dir sink).flatMap fun c =>
    owed strip keeps (scanLines c) := by
  unfold textsFrom
  rw [List.filter_eq_self.mpr fun p _ => decide_eq_true (Nat.zero_le p.1), chainLines,
    owed_linesOf strip keeps hstrip]

/-- A search counts the texts shown. -/
theorem search_total (lower : Bytes → Bytes) (filter : Filter) (q : Bytes) (limit : ℕ) (since : ℤ)
    (hs : since < 0) :
    ((newFileChain (fun _ => dir) sink).search (fun _ => dir) lower q limit filter since).totalMatches =
      (((chainTexts dir sink).flatMap (shown (filter.matches lower))).filter fun l =>
        contains (lower l) (lower q)).length := by
  have hholds := newFileChain_holds dir sink
  have hfound : ∀ p : ℕ × Bytes, (decide (since < 0 ∨ since ≤ (p.1 : ℤ)) &&
      contains (lower p.2) (lower q)) = contains (lower p.2) (lower q) := by
    intro p
    rw [decide_eq_true (.inl hs), Bool.true_and]
  rw [search_sees dir _ _ hholds lower q limit filter since, ← kept_sees_texts _ dir 0 _ _ hholds,
    List.filter_map, List.length_map]
  unfold Query.hits
  simp only [hfound]
  rfl

theorem owed_single (strip : Bytes → Bytes) (keeps : Bytes → Bool) (l : Bytes) :
    owed strip keeps [l] = if l.length ≤ maxLineBytes ∧ 0 < (strip l).length ∧
    keeps (strip l) = true then [strip l] else [] := by
  unfold owed
  by_cases hlen : l.length ≤ maxLineBytes
  · have hfit : [l].filter (fun l => decide (l.length ≤ maxLineBytes)) = [l] := by simp [hlen]
    rw [hfit, List.map_singleton]
    cases hs : strip l with
    | nil => simp
    | cons c s =>
      cases hk : keeps (c :: s) with
      | false => simp [hk]
      | true => simp [hk, hlen]
  · have hfit : [l].filter (fun l => decide (l.length ≤ maxLineBytes)) = [] := by simp [hlen]
    rw [hfit, if_neg (fun h => hlen h.1)]
    rfl

theorem wantedBackward_texts (keeps : Bytes → Bool) (since : ℤ) (hs : since < 0) (lines : List (ℕ × Bytes)) :
    (wantedBackward keeps since lines).map Prod.snd = owed trimRightCR keeps (lines.map Prod.snd) := by
  rw [wantedBackward_eq]
  induction lines with
  | nil => rfl
  | cons p lines ih =>
    rw [List.map_cons, owed_cons, owed_single, ← ih]
    by_cases h : p.2.length ≤ maxLineBytes ∧ 0 < (trimRightCR p.2).length ∧ keeps (trimRightCR p.2) = true
    · have hsel : selected keeps since p = some (p.1, trimRightCR p.2) := if_pos ⟨h.1, .inl hs, h.2⟩
      rw [List.filterMap_cons_some hsel, if_pos h]
      rfl
    · have hsel : selected keeps since p = none := if_neg fun hc => h ⟨hc.1, hc.2.2⟩
      rw [List.filterMap_cons_none hsel, if_neg h]
      rfl

/-- Blank lines are not owed. -/
theorem owed_filled (strip : Bytes → Bytes) (keeps : Bytes → Bool) (hstrip : strip [] = [])
    (lines : List (ℕ × Bytes)) :
    owed strip keeps ((filled lines).map Prod.snd) = owed strip keeps (lines.map Prod.snd) := by
  induction lines with
  | nil => rfl
  | cons p lines ih =>
    have hcons : filled (p :: lines) = filled [p] ++ filled lines := filled_append [p] lines
    rw [hcons, List.map_append, owed_append, ih, List.map_cons, owed_cons _ _ p.2]
    congr 1
    unfold filled
    rw [show [p] = [(p.1, p.2)] from rfl, kept_single]
    split
    · rfl
    · next h =>
      have hnil : p.2 = [] := List.length_eq_zero_iff.mp (by simpa using h)
      rw [hnil]
      exact (owed_blank strip keeps hstrip [[]] fun l hl => List.mem_singleton.mp hl).symm

/-- A backward read drops the lines that are too long by themselves. -/
theorem readBackward_owed (lower : Bytes → Bytes) (filter : Filter) (count maxResponseBytes o : ℕ)
    (since : ℤ) (hs : since < 0) (ho : LineStart o (chainTexts dir sink)) :
    ((newFileChain (fun _ => dir) sink).readBackward
      (fun _ => dir) lower maxResponseBytes o count filter since).lines =
        (greedy List.length count maxResponseBytes
          (owed trimRightCR (filter.matches lower) (textsBefore dir sink o)).reverse).reverse := by
  have hlines : ∀ entries, (pageOf o entries).lines = entries.map Prod.snd := by
    intro entries
    cases entries with
    | nil => rfl
    | cons e entries => rfl
  have hcut : owed trimRightCR (filter.matches lower)
      ((linesOf 0 (cutAt o (chainTexts dir sink))).map Prod.snd) = owed trimRightCR (filter.matches lower)
      (textsBefore dir sink o) := by
    have hcomm : (filled (linesOf 0 (chainTexts dir sink))).filter (fun p => decide (p.1 < 0 + o)) =
        filled ((linesOf 0 (chainTexts dir sink)).filter fun p => decide (p.1 < o)) := by
      unfold filled kept
      rw [Nat.zero_add, List.filter_comm]
    rw [← owed_filled trimRightCR _ rfl, filled_cutAt 0 o _ ho, hcomm, owed_filled trimRightCR _ rfl]
    rfl
  rw [FileChain.readBackward, readBackwardBy_chain lower dir sink filter count maxResponseBytes
    backwardChunkSize (by decide) (by decide) o since, naiveBackward, hlines, List.map_reverse]
  change ((greedyFrom (fun p : ℕ × Bytes => p.2.length) count maxResponseBytes 0 0 _).map Prod.snd).reverse = _
  rw [greedyFrom_map List.length Prod.snd, List.map_reverse, wantedBackward_texts _ since hs, hcut]
  rfl

include hlast in
theorem LongLinesLast.alike : LongLinesAlike dir sink := by
  have hholds := newFileChain_holds dir sink
  have htotal := newFileChain_total dir sink
  refine ⟨?_, ?_, ?_, readBackward_owed dir sink⟩
  · intro lower filter count budget hcount start hstart
    obtain ⟨left, hentries, hls, -⟩ := readForward_tokens (filter.matches lower) count budget dir
      (newFileChain (fun _ => dir) sink) lower filter rfl hcount start.1
    rw [hls, hentries, ← seesAt_owed dir sink hlast (filter.matches lower) start hstart]
    exact greedyFrom_map List.length Prod.snd count budget 0 0 _
  · intro lower filter count budget hcount start hstart
    rw [← seesAt_owed dir sink hlast (filter.matches lower) start hstart]
    exact forward_cover (filter.matches lower) dir _ _ hholds htotal lower filter rfl count budget hcount
      start.1
  · intro lower filter q limit since hs
    have hshown : (chainTexts dir sink).flatMap (shown (filter.matches lower)) =
        (chainTexts dir sink).flatMap fun c => owed dropCR (filter.matches lower) (scanLines c) :=
      List.flatMap_congr fun c hc => LongLinesLast.shown_eq _ c (hlast c hc)
    rw [search_total dir sink lower filter q limit since hs, hshown, owed_chain dir sink dropCR _ rfl]

end Paths

/-! ## Which chains -/

theorem flatMap_length_eq (f g : Bytes → List Bytes) (h : ∀ c, (f c).length ≤ (g c).length) (l : List Bytes)
    (heq : (l.flatMap f).length = (l.flatMap g).length) : ∀ c ∈ l, (f c).length = (g c).length := by
  have hle : ∀ m : List Bytes, (m.flatMap f).length ≤ (m.flatMap g).length := by
    intro m
    induction m with
    | nil => exact Nat.le_refl _
    | cons c m ih =>
      rw [List.flatMap_cons, List.flatMap_cons, List.length_append, List.length_append]
      have := h c
      omega
  induction l with
  | nil => simp
  | cons d l ih =>
    rw [List.flatMap_cons, List.flatMap_cons, List.length_append, List.length_append] at heq
    have hd := h d
    have hl := hle l
    intro c hc
    cases List.mem_cons.mp hc with
    | inl hc =>
      rw [hc]
      omega
    | inr hc => exact ih (by omega) c hc

/-- When nothing is owed behind the first line that is too long for the scanner, the long lines are last. -/
theorem longLinesLast_of_owed (c : Bytes)
    (h : owed dropCR (everything.matches id)
      ((scanLines c).dropWhile fun l => decide (l.length < maxLineBytes)) = []) :
    LongLinesLast c := by
  have hback : ∀ m ∈ (scanLines c).dropWhile (fun l => decide (l.length < maxLineBytes)), dropCR m = [] ∨
      maxLineBytes < m.length := by
    intro m hm
    by_contra hcon
    rw [not_or] at hcon
    obtain ⟨a, b, hab⟩ := List.append_of_mem hm
    rw [hab, owed_append, owed_cons, owed_single, if_pos ⟨by omega, List.length_pos_iff.mpr hcon.1,
      matches_everything id _⟩] at h
    simp at h
  have hfront : ∀ l ∈ (scanLines c).takeWhile (fun l => decide (l.length < maxLineBytes)),
      l.length < maxLineBytes := by
    intro l hl
    have hlt := List.mem_takeWhile_imp hl
    exact of_decide_eq_true hlt
  have hcut := List.takeWhile_append_dropWhile (p := fun l : Bytes => decide (l.length < maxLineBytes))
    (l := scanLines c)
  unfold LongLinesLast
  rw [← hcut]
  refine ⟨?_, List.pairwise_append.mpr ⟨?_, ?_, ?_⟩⟩
  · intro l hl heq
    cases List.mem_append.mp hl with
    | inl hl =>
      have := hfront l hl
      omega
    | inr hl =>
      have hne := dropCR_length l
      cases hback l hl with
      | inl hblank =>
        rw [hblank, heq] at hne
        exact absurd hne.2 (by decide)
      | inr hlong => omega
  · apply List.pairwise_of_forall_mem_list
    intro l hl m _ hlong
    have := hfront l hl
    omega
  · apply List.pairwise_of_forall_mem_list
    intro l _ m hm _
    exact hback m hm
  · intro l hl m _ hlong
    have := hfront l hl
    omega

theorem LongLinesAlike.last (dir : Directory) (sink : Sink) (h : LongLinesAlike dir sink) :
    ∀ c ∈ chainTexts dir sink, LongLinesLast c := by
  have htotal := h.search id everything [] 0 (-1) (by decide)
  have hall : ∀ ls : List Bytes, (ls.filter fun l => contains (id l) (id [])) = ls := by
    intro ls
    apply List.filter_eq_self.mpr
    intro l _
    unfold contains index
    simp
  rw [search_total dir sink id everything [] 0 (-1) (by decide), hall, hall,
    owed_chain dir sink dropCR _ rfl] at htotal
  intro c hc
  have hlen := flatMap_length_eq _ _ (fun c => by rw [owed_eq_shown, List.length_append]; omega) _ htotal c hc
  rw [owed_eq_shown, List.length_append] at hlen
  exact longLinesLast_of_owed c (List.length_eq_zero_iff.mp (by omega))

/-- The three read paths treat long lines alike if and only if no line has exactly `maxLineBytes` bytes and
every longer line has only blank and longer ones behind it in its file. -/
theorem longLines_alike_iff (dir : Directory) (sink : Sink) :
    LongLinesAlike dir sink ↔ ∀ c ∈ chainTexts dir sink, LongLinesLast c :=
  ⟨LongLinesAlike.last dir sink, LongLinesLast.alike dir sink⟩

/-- A line that is too long, and a record behind it. -/
def longFirst : Directory := fun path =>
  if path = ascii "/l/s.jsonl" then some (List.replicate (maxLineBytes + 1) 0x61 ++ lf ::
    ascii "\x7bb\x7d\n") else none

theorem longLines_hide : ¬ LongLinesAlike longFirst ⟨ascii "s", ascii "/l/s.jsonl", 0⟩ := by
  intro h
  have hmem : List.replicate (maxLineBytes + 1) 0x61 ++ lf :: ascii "\x7bb\x7d\n" ∈ chainTexts longFirst
      ⟨ascii "s", ascii "/l/s.jsonl", 0⟩ := by
    refine List.mem_filter.mpr ⟨List.mem_filterMap.mpr ⟨ascii "/l/s.jsonl", List.mem_singleton_self _,
      if_pos rfl⟩, ?_⟩
    simp
  have hlast := (h.last _ _ _ hmem).2
  rw [scanLines_terminated _ _ (fun hm => absurd (List.eq_of_mem_replicate hm) (by decide))] at hlast
  have hb := (List.pairwise_cons.mp hlast).1 (ascii "\x7bb\x7d") (by decide)
    (by rw [List.length_replicate]; exact Nat.lt_succ_self _)
  exact absurd hb (by decide)

end Minilog.Viewer
