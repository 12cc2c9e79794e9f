import Minilog.Viewer.Backward
import Minilog.Viewer.Search

/-! Where the readers say a line stands, for files with any line ends.

The scanner strips the CR of a line ended by CRLF and the loops of `ReadForward` and `Search` count only the
LF, so they are one byte short behind it. Without CRLF the offsets are physical; a CRLF is harmless only on a
blank line with nothing but blank lines behind it in its file. -/
namespace Minilog.Viewer
open Lib
set_option autoImplicit false

/-- Every offset a reader reports is where the line stands that it reports there. -/
structure OffsetsPhysical (dir : Directory) (sink : Sink) : Prop where
  forward : ∀ (lower : Bytes → Bytes) (filter : Filter) (count maxResponseBytes : ℕ), 1 ≤ count →
    ∀ start ∈ chainLines dir sink,
      let fc := newFileChain (fun _ => dir) sink
      let page := fc.readForward (fun _ => dir) lower maxResponseBytes start.1 count filter
      let wanted := greedy weight count maxResponseBytes
        (kept (filter.matches lower) (linesFrom dir sink start.1))
      page.offsets = wanted.map Prod.fst ∧ page.lines = wanted.map Prod.snd ∧ Boundary dir fc page.nextOffset
  search : ∀ (lower : Bytes → Bytes) (filter : Filter) (q : Bytes) (limit : ℕ) (since : ℤ),
      let hits :=
        Query.hits ⟨lower, lower q, limit, filter, since⟩ (kept (filter.matches lower) (linesFrom dir sink 0))
      (newFileChain (fun _ => dir) sink).search (fun _ => dir) lower q limit filter since =
        ⟨(hits.map Prod.fst).take limit, hits.length⟩
  backward : ∀ (lower : Bytes → Bytes) (filter : Filter) (count maxResponseBytes o : ℕ) (since : ℤ),
      LineStart o (chainTexts dir sink) →
      ∀ e ∈ ((newFileChain (fun _ => dir) sink).readBackward
        (fun _ => dir) lower maxResponseBytes o count filter since).entries,
        ∃ l, (e.1, l) ∈ chainLines dir sink ∧ e.2 = trimRightCR l

/-! ## Without CRLF -/

theorem NoCRLF.suffix (a t : Bytes) (ha : a = [] ∨ a.getLast? = some lf ∨ t = []) (h : NoCRLF (a ++ t)) :
    NoCRLF t := by
  intro l hl
  cases ha with
  | inl ha =>
    rw [ha] at h
    exact h l hl
  | inr ha =>
    cases ha with
    | inl ha =>
      apply h l
      rw [closedLines_append a t (.inr ha)]
      exact List.mem_append_right _ hl
    | inr ht =>
      rw [ht] at hl
      exact absurd hl List.not_mem_nil

section Physical

variable (dir : Directory) (sink : Sink)
variable (hlen : ∀ p ∈ chainLines dir sink, p.2.length < maxLineBytes)
  (hcr : ∀ c ∈ chainTexts dir sink, NoCRLF c)

include hcr in
/-- A read leaves its cursor at a line start or the end of a file. -/
theorem Leaves.boundary (keeps : Bytes → Bool) (fc : FileChain)
    (hfc : fc = newFileChain (fun _ => dir) sink) (o : ℕ) (f : ChainFile) (a t : Bytes)
    (later : List ChainFile) (cs : List Bytes) (h : At dir fc o f a t later cs) (next : ℕ)
    (left : List (ℕ × Bytes)) (hl : Leaves keeps dir (f :: later) a.length next left) :
    Boundary dir fc next := by
  obtain ⟨pre, g, post, ph, done, rest, hfs, hph, htoks, -, hnext, -⟩ := hl.place
  have hholds : Holds dir 0 fc.files (chainTexts dir sink) := by
    rw [hfc]
    exact newFileChain_holds dir sink
  obtain ⟨pre₀, bs, hfiles, -, -⟩ := h.files
  cases hph with
  | inl hhere =>
    rw [hhere.1, List.nil_append] at hfs
    obtain ⟨hfg, -⟩ := List.cons.inj hfs
    obtain ⟨ds, htexts, -⟩ := h.texts dir fc _ hholds o f a t later cs
    have hno : NoCRLF t := NoCRLF.suffix a t h.boundary (hcr (a ++ t) (by rw [htexts]; simp))
    rw [← hfg, hhere.2] at htoks hnext
    rw [h.fileTokens_eq dir fc o f a t later cs] at htoks
    rw [h.file_end dir fc o f a t later cs, ← h.offset] at hnext
    obtain ⟨p, s, hps, hend, -, -, -, -, -, hexact⟩ := placedEnd_split done rest t o o (Nat.le_refl o) htoks
    have hpos := hexact rfl hno
    have hat := h.advance dir fc o f a t p s later cs hps hend
    refine ⟨f, by rw [hfiles]; simp, a ++ p, s, hat.content, ?_, hat.boundary⟩
    rw [hnext, hpos]
    exact hat.offset
  | inr hlater =>
    obtain ⟨f', pre', hpre⟩ := List.exists_cons_of_ne_nil hlater.1
    rw [hpre, List.cons_append] at hfs
    obtain ⟨-, hpost⟩ := List.cons.inj hfs
    have hmem : g ∈ fc.files := by
      rw [hfiles, hpost]
      simp
    obtain ⟨pre₁, post₁, hsplit⟩ := List.append_of_mem hmem
    rw [hsplit] at hholds
    obtain ⟨ds, c, es, htexts, -, -, hdir, hsize, -, -⟩ := hholds.file_text dir 0 _ _ _ _
    have hc : c ∈ chainTexts dir sink := by
      rw [htexts]
      simp
    have hwindow : window c g 0 = c := by
      unfold window
      rw [List.drop_zero, hsize, Nat.sub_zero, List.take_length]
    rw [hlater.2] at htoks hnext
    unfold fileTokens at htoks
    rw [hdir] at htoks
    simp only [hwindow] at htoks
    obtain ⟨p, s, hps, hend, -, -, -, -, -, hexact⟩ :=
      placedEnd_split done rest c g.start g.start (Nat.le_refl _) htoks
    have hpos := hexact rfl (hcr c hc)
    refine ⟨g, hmem, p, s, by rw [hdir, hps], ?_, hend⟩
    rw [hnext, hsize, Nat.add_zero, hpos]

include hlen hcr in
/-- From a line start on, a forward read reports the lines where they stand. -/
theorem readForward_physical (lower : Bytes → Bytes) (filter : Filter) (count maxResponseBytes : ℕ)
    (hcount : 1 ≤ count) (start : ℕ × Bytes) (hstart : start ∈ chainLines dir sink) :
    let fc := newFileChain (fun _ => dir) sink
    let page := fc.readForward (fun _ => dir) lower maxResponseBytes start.1 count filter
    let wanted := greedy weight count maxResponseBytes
      (kept (filter.matches lower) (linesFrom dir sink start.1))
    page.offsets = wanted.map Prod.fst ∧ page.lines = wanted.map Prod.snd ∧
      Boundary dir fc page.nextOffset := by
  intro fc page wanted
  have hholds := newFileChain_holds dir sink
  have htotal := newFileChain_total dir sink
  obtain ⟨f₀, a₀, t₀, later₀, cs₀, hat₀, -, -⟩ := line_at dir fc _ hholds start hstart
  obtain ⟨f, a, t, later, cs, hat, hl⟩ := hat₀.settle dir fc start.1 f₀ a₀ t₀ later₀ cs₀
  obtain ⟨i, hplace, hdrop⟩ := hat.fileAt_eq dir fc _ hholds htotal start.1 f a t later cs hl
  obtain ⟨bs, htexts, hpos⟩ := hat.texts dir fc _ hholds start.1 f a t later cs
  have hsees : kept (filter.matches lower) (seesAt dir fc start.1) =
      kept (filter.matches lower) (linesFrom dir sink start.1) := by
    have hno : NoCRLF t := NoCRLF.suffix a t hat.boundary (hcr (a ++ t) (by rw [htexts]; simp))
    have hshort : ∀ p ∈ splitLines start.1 t ++ linesOf (start.1 + t.length) cs, p.2.length < maxLineBytes := by
      intro p hp
      obtain ⟨front, -, hsplit⟩ := hat.lines_split dir fc _ hholds start.1 f a t later cs
      cases hsplit with
      | inl hs => exact hlen p (by rw [chainLines, hs]; exact List.mem_append_right _ hp)
      | inr hs =>
        cases List.mem_append.mp hp with
        | inl hp =>
          rw [hs.1] at hp
          rw [List.mem_singleton.mp hp]
          exact Nat.zero_lt_succ _
        | inr hp => exact hlen p (by rw [chainLines, hs.2]; exact List.mem_append_right _ hp)
    have hfit : ∀ l ∈ scanLines t, l.length < maxLineBytes := by
      intro l hl
      obtain ⟨q, hq⟩ := scanLines_subset t start.1 l hl
      exact hshort (q, l) (List.mem_append_left _ hq)
    have hrest : Holds dir (start.1 + t.length) later cs := by
      rw [← hat.file_end dir fc start.1 f a t later cs]
      exact hat.rest
    rw [hat.kept_linesFrom (filter.matches lower) dir fc sink rfl start.1 f a t later cs,
      hat.seesAt_eq dir fc _ hholds htotal start.1 f a t later cs hl, kept_append,
      kept_placed _ t start.1 hfit hno,
      kept_sees _ dir _ later cs hrest (fun p hp => hshort p (List.mem_append_right _ hp))
        (fun c hc => hcr c (by rw [htexts]; simp [hc])), List.map_append, kept_append]
  obtain ⟨left, hentries, hls, hos, -, hstay, hleave⟩ :=
    readForward_tokens (filter.matches lower) count maxResponseBytes dir fc lower filter rfl hcount start.1
  rw [hsees] at hentries
  refine ⟨by rw [hos, hentries], by rw [hls, hentries], ?_⟩
  by_cases hnone : page.entries = []
  · rw [hstay hnone]
    obtain ⟨pre, bs', hfiles, -, -⟩ := hat.files
    exact ⟨f, by rw [hfiles]; simp, a, t, hat.content, hat.offset, hat.boundary⟩
  · have hleft := hleave hnone
    rw [hplace] at hleft
    simp only [hdrop] at hleft
    exact Leaves.boundary dir sink hcr (filter.matches lower) fc rfl start.1 f a t later cs hat _ left hleft

include hlen hcr in
theorem search_physical (lower : Bytes → Bytes) (filter : Filter) (q : Bytes) (limit : ℕ) (since : ℤ) :
    let hits := Query.hits ⟨lower, lower q, limit, filter, since⟩ (kept (filter.matches lower) (linesFrom dir sink 0))
    (newFileChain (fun _ => dir) sink).search (fun _ => dir) lower q limit filter since =
      ⟨(hits.map Prod.fst).take limit, hits.length⟩ := by
  have hall : linesFrom dir sink 0 = (chainLines dir sink).map token := by
    unfold linesFrom
    rw [List.filter_eq_self.mpr fun p _ => decide_eq_true (Nat.zero_le p.1)]
  rw [hall, chainLines, ← kept_sees _ dir 0 _ _ (newFileChain_holds dir sink) hlen hcr]
  exact search_sees dir _ _ (newFileChain_holds dir sink) lower q limit filter since

/-- A backward read reports its lines where they stand, whatever the line ends are. -/
theorem readBackward_physical (lower : Bytes → Bytes) (filter : Filter) (count maxResponseBytes o : ℕ)
    (since : ℤ) (ho : LineStart o (chainTexts dir sink)) :
    ∀ e ∈ ((newFileChain (fun _ => dir) sink).readBackward
      (fun _ => dir) lower maxResponseBytes o count filter since).entries,
      ∃ l, (e.1, l) ∈ chainLines dir sink ∧ e.2 = trimRightCR l := by
  intro e he
  rw [FileChain.readBackward, readBackwardBy_chain lower dir sink filter count maxResponseBytes
    backwardChunkSize (by decide) (by decide) o since, naiveBackward, pageOf_entries, List.mem_reverse] at he
  have hwanted := List.mem_reverse.mp ((greedyFrom_initial weight count maxResponseBytes 0 0 _).mem he)
  rw [wantedBackward_eq] at hwanted
  obtain ⟨p, hp, hsel⟩ := List.mem_filterMap.mp hwanted
  unfold selected at hsel
  split at hsel
  · next hcond =>
    have hep := Option.some.inj hsel
    have hne : 0 < p.2.length := by
      cases hnil : p.2 with
      | nil =>
        rw [hnil] at hcond
        exact absurd hcond.2.2.1 (Nat.lt_irrefl 0)
      | cons c l => exact Nat.zero_lt_succ _
    have hmem : p ∈ filled (linesOf 0 (cutAt o (chainTexts dir sink))) := (mem_filled p _).mpr ⟨hp, hne⟩
    rw [filled_cutAt 0 o _ ho] at hmem
    have hline := ((mem_filled p _).mp (List.mem_filter.mp hmem).1).1
    rw [← hep]
    exact ⟨p.2, hline, rfl⟩
  · exact absurd hsel (by simp)

end Physical

/-! ## With CRLF -/

theorem lineStart_skip (bs cs : List Bytes) (m : ℕ) : LineStart (bs.flatten.length + m) (bs ++ cs) ↔
    LineStart m cs := by
  induction bs with
  | nil => rw [List.flatten_nil, List.length_nil, Nat.zero_add, List.nil_append]
  | cons b bs ih =>
    rw [List.cons_append, LineStart, List.flatten_cons, List.length_append, if_neg (by omega), ← ih]
    rw [show b.length + bs.flatten.length + m - b.length = bs.flatten.length + m by omega]

theorem Boundary.lineStart (dir : Directory) (fc : FileChain) (texts : List Bytes)
    (hfc : Holds dir 0 fc.files texts) (o : ℕ) (h : Boundary dir fc o) : LineStart o texts := by
  obtain ⟨g, hg, a, t, hdir, ho, hend⟩ := h
  obtain ⟨pre, post, hsplit⟩ := List.append_of_mem hg
  rw [hsplit] at hfc
  obtain ⟨bs, c, cs, htexts, -, hstart, hc, -⟩ := hfc.file_text dir 0 _ _ _ _
  have hcat : c = a ++ t := Option.some.inj (hc.symm.trans hdir)
  rw [htexts, ho, hstart, Nat.zero_add, lineStart_skip, LineStart, hcat, List.length_append]
  split
  · next hin =>
    rw [List.take_left]
    cases hend with
    | inl ha => exact .inl (by rw [ha]; rfl)
    | inr hend =>
      refine .inr (hend.resolve_right ?_)
      intro ht
      rw [ht] at hin
      exact absurd hin (by simp)
  · next hout =>
    rw [show a.length - (a.length + t.length) = 0 by omega]
    exact lineStart_zero cs

theorem scanFile_full (keeps : Bytes → Bool) (count budget fileEnd : ℕ) (toks : List Bytes) (cur : ℕ)
    (st : Forward) (h : ¬ st.collected.length < count) :
    scanFile keeps count budget fileEnd toks cur st = st := by
  cases toks with
  | nil => rfl
  | cons raw toks => rw [scanFile, if_neg h]

/-- The cursor of a page of one line that is the first at its place. -/
theorem At.readForward_one (dir : Directory) (fc : FileChain) (texts : List Bytes)
    (hfc : Holds dir 0 fc.files texts) (htotal : fc.total = texts.flatten.length) (o : ℕ) (f : ChainFile)
    (a t : Bytes) (later : List ChainFile) (cs : List Bytes) (h : At dir fc o f a t later cs) (ht : t ≠ [])
    (lower : Bytes → Bytes) (filter : Filter) (budget : ℕ) (raw : Bytes) (toks : List Bytes)
    (htoks : scanTokens t = raw :: toks) (hraw : 0 < raw.length) (hkeep : filter.matches lower raw = true) :
    (fc.readForward (fun _ => dir) lower budget o 1 filter).nextOffset = step (o + t.length) o raw := by
  obtain ⟨i, hplace, hdrop⟩ := h.fileAt_eq dir fc texts hfc htotal o f a t later cs (.inl ht)
  obtain ⟨pre, bs, hfiles, -, -⟩ := h.files
  have hscan : scanFile (filter.matches lower) 1 budget (o + t.length) (raw :: toks) o ⟨[], 0, false, 0, o⟩ =
      ⟨[(o, raw)], raw.length, false, o, step (o + t.length) o raw⟩ := by
    rw [scanFile]
    simp only [List.length_nil, Nat.zero_lt_one, if_true, hraw, hkeep, and_self, Nat.lt_irrefl, false_and,
      if_false, List.nil_append, Nat.zero_add]
    exact scanFile_full _ _ _ _ _ _ _ (Nat.lt_irrefl 1)
  have hread : readFiles (fun _ => dir) (filter.matches lower) 1 budget 0 (f :: later) a.length ⟨[], 0,
      false, 0, o⟩ = ⟨[(o, raw)], raw.length, false, o, step (o + t.length) o raw⟩ := by
    rw [readFiles, if_pos ⟨Nat.one_pos, rfl⟩, h.content]
    change readFiles _ _ 1 budget _ later 0
      (scanFile _ 1 budget _ (scanTokens (window (a ++ t) f a.length)) _ _) = _
    rw [h.window_eq dir fc o f a t later cs, h.file_end dir fc o f a t later cs, ← h.offset, htoks, hscan]
    exact readFiles_stopped _ 1 budget _ _ later 0 _ (fun hc => Nat.lt_irrefl 1 hc.1)
  unfold FileChain.readForward
  rw [if_neg (by rw [FileChain.empty, hfiles]; simp), hplace]
  simp only [hdrop]
  rw [hread]
  rfl

/-- Once the count is behind, the first line that is not blank is reported in front of where it stands. -/
theorem kept_early (keeps : Bytes → Bool) (hkeeps : ∀ l, keeps l = true) (s : Bytes) (cur o fileEnd : ℕ)
    (hcur : cur < o) (hlen : ∀ l ∈ scanLines s, l.length < maxLineBytes)
    (hsome : ∃ m ∈ scanLines s, dropCR m ≠ []) :
    ∃ x xs y ys, kept keeps (placed fileEnd cur (scanTokens s)) = x :: xs ∧
    kept keeps ((splitLines o s).map token) = y :: ys ∧
      x.1 < y.1 := by
  have hfirst : ∀ (q : ℕ) (m : Bytes), m ≠ [] → ∀ l, kept keeps ((q, m) :: l) = (q, m) :: kept keeps l :=
    fun q m hm l => kept_cons_pos keeps (q, m) l (by simp [hm, hkeeps])
  induction hn : s.length using Nat.strongRecOn generalizing s cur o with
  | ind n ih =>
    cases lines_cases s with
    | inl hnil =>
      obtain ⟨m, hm, -⟩ := hsome
      rw [hnil] at hm
      exact absurd hm List.not_mem_nil
    | inr h =>
      cases h with
      | inl h =>
        rw [scanLines_unterminated s h.1 h.2] at hlen hsome
        obtain ⟨m, hm, hne⟩ := hsome
        rw [List.mem_singleton.mp hm] at hne
        rw [scanTokens_unterminated s h.1 h.2, if_pos (hlen s (List.mem_singleton_self s)),
          splitLines_unterminated o s h.2]
        exact ⟨_, _, _, _, hfirst cur _ hne [], hfirst o _ hne [], hcur⟩
      | inr h =>
        obtain ⟨l, s', hl, rfl⟩ := h
        rw [scanLines_terminated l s' hl] at hlen hsome
        rw [scanTokens_terminated l s' hl, if_pos (hlen l List.mem_cons_self),
          splitLines_terminated o l s' hl, placed, List.map_cons]
        by_cases hne : dropCR l = []
        · have hblank : ∀ (q : ℕ) (m : List (ℕ × Bytes)), kept keeps ((q, dropCR l) :: m) = kept keeps m := by
            intro q m
            rw [hne]
            rfl
          have hrest : ∃ m ∈ scanLines s', dropCR m ≠ [] := by
            obtain ⟨m, hm, hmne⟩ := hsome
            cases List.mem_cons.mp hm with
            | inl hm => exact absurd (hm ▸ hne) hmne
            | inr hm => exact ⟨m, hm, hmne⟩
          have hstep : step fileEnd cur (dropCR l) < o + (l.length + 1) := by
            have : step fileEnd cur (dropCR l) ≤ cur + ((dropCR l).length + 1) := Nat.min_le_left ..
            rw [hne, List.length_nil] at this
            rw [hne]
            omega
          obtain ⟨x, xs, y, ys, hx, hy, hlt⟩ :=
            ih s'.length (by rw [← hn, List.length_append, List.length_cons]; omega) s' _
            (o + (l.length + 1)) hstep (fun m hm => hlen m (List.mem_cons_of_mem l hm)) hrest rfl
          exact ⟨x, xs, y, ys, (hblank cur _).trans hx, (hblank o _).trans hy, hlt⟩
        · exact ⟨_, _, _, _, hfirst cur _ hne _, hfirst o _ hne _, hcur⟩

/-- A CRLF ends only blank lines with nothing but blank lines behind them. -/
def CRLFHarmless (c : Bytes) : Prop :=
  ∀ a l s, c = a ++ (l ++ cr :: lf :: s) → a = [] ∨ a.getLast? = some lf → lf ∉ l → l = [] ∧
    ∀ m ∈ scanLines s, dropCR m = []

theorem dropCR_append (l : Bytes) : dropCR (l ++ [cr]) = l := by
  unfold dropCR
  rw [if_pos (by simp), List.dropLast_concat]

section Harm

variable (dir : Directory) (sink : Sink) (bs : List Bytes) (a l s : Bytes) (cs : List Bytes)
variable (htexts : chainTexts dir sink = bs ++ (a ++ (l ++ cr :: lf :: s)) :: cs)
  (ha : a = [] ∨ a.getLast? = some lf) (hl : lf ∉ l)
variable (hlen : ∀ p ∈ chainLines dir sink, p.2.length < maxLineBytes)

include hl in
theorem crlf_lines (o : ℕ) : splitLines o (l ++ cr :: lf :: s) = (o, l ++ [cr]) ::
    splitLines (o + (l.length + 2)) s := by
  have hline : lf ∉ l ++ [cr] := by
    rw [List.mem_append, not_or]
    exact ⟨hl, by decide⟩
  have h := splitLines_terminated o (l ++ [cr]) s hline
  rwa [List.append_assoc, List.singleton_append, List.length_append] at h

include hl in
theorem crlf_tokens (hshort : (l ++ [cr]).length < maxLineBytes) :
    scanTokens (l ++ cr :: lf :: s) = l :: scanTokens s := by
  have hline : lf ∉ l ++ [cr] := by
    rw [List.mem_append, not_or]
    exact ⟨hl, by decide⟩
  have h := scanTokens_terminated (l ++ [cr]) s hline
  rwa [if_pos hshort, dropCR_append, List.append_assoc, List.singleton_append] at h

include htexts ha hl in
theorem crlf_line_mem : (bs.flatten.length + a.length, l ++ [cr]) ∈ chainLines dir sink ∧
    ∀ p ∈ splitLines (bs.flatten.length + a.length + (l.length + 2)) s, p ∈ chainLines dir sink := by
  have hholds := newFileChain_holds dir sink
  rw [htexts] at hholds
  obtain ⟨f, later, hat⟩ := text_at dir _ bs a (l ++ cr :: lf :: s) cs hholds ha
  obtain ⟨front, -, hsplit⟩ := hat.lines_split dir _ _ hholds _ f a _ later cs
  have hlines := hsplit.resolve_right (fun h => absurd h.1 (by simp))
  rw [crlf_lines l s hl] at hlines
  unfold chainLines
  rw [htexts, hlines]
  refine ⟨List.mem_append_right _ (List.mem_append_left _ List.mem_cons_self), ?_⟩
  intro p hp
  exact List.mem_append_right _ (List.mem_append_left _ (List.mem_cons_of_mem _ hp))

include htexts ha hl hlen in
/-- The cursor behind a line that is ended by CRLF is between its CR and its LF. -/
theorem crlf_cursor (h : OffsetsPhysical dir sink) : l = [] := by
  by_contra hne
  have hholds := newFileChain_holds dir sink
  have htotal := newFileChain_total dir sink
  have hmem := (crlf_line_mem dir sink bs a l s cs htexts ha hl).1
  rw [htexts] at hholds htotal
  obtain ⟨f, later, hat⟩ := text_at dir _ bs a (l ++ cr :: lf :: s) cs hholds ha
  have hnext := hat.readForward_one dir _ _ hholds htotal _ f a _ later cs (by simp) id everything 0 l (scanTokens s)
    (crlf_tokens l s hl (hlen _ hmem)) (List.length_pos_iff.mpr hne) (matches_everything id l)
  have hbound := (h.forward id everything 1 0 (Nat.le_refl 1) _ hmem).2.2
  simp only at hbound
  rw [hnext] at hbound
  have hstart := Boundary.lineStart dir _ _ hholds _ hbound
  have hstep : step (bs.flatten.length + a.length + (l ++ cr :: lf :: s).length) (bs.flatten.length + a.length) l =
      bs.flatten.length + (a ++ (l ++ [cr])).length := by
    rw [step, List.length_append, List.length_append, List.length_append, List.length_cons, List.length_cons,
      List.length_singleton]
    omega
  have hcut : a ++ (l ++ cr :: lf :: s) = (a ++ (l ++ [cr])) ++ lf :: s := by simp
  rw [hstep, lineStart_skip, LineStart, hcut, if_pos (by simp), List.take_left] at hstart
  cases hstart with
  | inl h0 => exact absurd h0 (by simp)
  | inr hlast =>
    rw [← List.append_assoc, List.getLast?_concat] at hlast
    exact absurd (Option.some.inj hlast) (by decide)

include htexts ha hl hlen in
/-- Behind a blank line that is ended by CRLF there is nothing to report. -/
theorem crlf_blank_tail (h : OffsetsPhysical dir sink) (hblank : l = []) : ∀ m ∈ scanLines s, dropCR m = [] := by
  intro m hm
  by_contra hne
  have hholds := newFileChain_holds dir sink
  have htotal := newFileChain_total dir sink
  obtain ⟨hmem, htail⟩ := crlf_line_mem dir sink bs a l s cs htexts ha hl
  have hshort : ∀ m ∈ scanLines s, m.length < maxLineBytes := by
    intro m hm
    obtain ⟨q, hq⟩ := scanLines_subset s _ m hm
    exact hlen _ (htail _ hq)
  rw [htexts] at hholds htotal
  obtain ⟨f, later, hat⟩ := text_at dir _ bs a (l ++ cr :: lf :: s) cs hholds ha
  generalize hq : bs.flatten.length + a.length = q at *
  have hseen := hat.seesAt_eq dir _ _ hholds htotal q f a _ later cs (.inl (by simp))
  have hfrom := hat.kept_linesFrom (everything.matches id) dir _ sink rfl q f a _ later cs
  obtain ⟨x, xs, y, ys, hx, hy, hlt⟩ :=
    kept_early (everything.matches id) (matches_everything id) s (q + 1) (q + 2)
    (q + (l ++ cr :: lf :: s).length) (by omega) hshort ⟨m, hm, hne⟩
  have hforward := (h.forward id everything 1 0 (Nat.le_refl 1) _ hmem).1
  obtain ⟨left, hentries, -, hos, -, -, -⟩ :=
    readForward_tokens (everything.matches id) 1 0 dir (newFileChain (fun _ => dir) sink) id everything rfl
    (Nat.le_refl 1) q
  have hsees : kept (everything.matches id) (seesAt dir (newFileChain (fun _ => dir) sink) q) =
      x :: (xs ++ kept (everything.matches id) (sees dir later 0)) := by
    have hstep : step (q + (l ++ cr :: lf :: s).length) q l = q + 1 := by
      rw [step, hblank, List.nil_append, List.length_cons]
      simp only [List.length_nil]
      omega
    rw [hseen, crlf_tokens l s hl (hlen _ hmem), placed, hstep, List.cons_append, kept_cons, hblank,
      kept_append]
    rw [hblank] at hx
    rw [hx]
    rfl
  have hwanted : kept (everything.matches id) (linesFrom dir sink q) =
      y :: (ys ++ kept (everything.matches id) ((linesOf (q + (l ++ cr :: lf :: s).length) cs).map token)) := by
    rw [hfrom, crlf_lines l s hl, List.cons_append, List.map_cons, List.map_append, kept_cons, token,
      hblank, kept_append]
    rw [show q + ((([] : Bytes)).length + 2) = q + 2 from rfl, hy]
    rfl
  rw [hsees, greedy_one] at hentries
  simp only at hforward
  rw [hwanted, greedy_one, hos, hentries] at hforward
  have hxy : x.1 = y.1 := by simpa using hforward
  omega

end Harm

/-- Files without CRLF: the offsets of all three readers are physical, and every cursor is a line start or a
file end. A chain whose offsets are physical has CRLF only where nothing is reported behind it. -/
theorem offsets_physical (dir : Directory) (sink : Sink)
    (hlen : ∀ p ∈ chainLines dir sink, p.2.length < maxLineBytes) :
    ((∀ c ∈ chainTexts dir sink, NoCRLF c) → OffsetsPhysical dir sink) ∧
      (OffsetsPhysical dir sink → ∀ c ∈ chainTexts dir sink, CRLFHarmless c) := by
  refine ⟨?_, ?_⟩
  · intro hcr
    exact ⟨readForward_physical dir sink hlen hcr, search_physical dir sink hlen hcr, readBackward_physical dir sink⟩
  · intro h c hc a l s hcat ha hl
    obtain ⟨bs, cs, htexts⟩ := List.append_of_mem hc
    rw [hcat] at htexts
    have hblank := crlf_cursor dir sink bs a l s cs htexts ha hl hlen h
    exact ⟨hblank, crlf_blank_tail dir sink bs a l s cs htexts ha hl hlen h hblank⟩

theorem offsets_physical_cutShort : OffsetsPhysical cutShort ⟨ascii "s", ascii "/l/s.jsonl", 1⟩ :=
  (offsets_physical cutShort ⟨ascii "s", ascii "/l/s.jsonl", 1⟩ (by decide +kernel)).1
    (by unfold NoCRLF; decide +kernel)

/-- A file whose first line is ended by CRLF. -/
def crlfEnded : Directory := fun path =>
  if path = ascii "/l/s.jsonl" then some (ascii "\x7ba\x7d\x0d\x0a\x7bb\x7d\x0a") else none

theorem offsets_shifted : ¬ OffsetsPhysical crlfEnded ⟨ascii "s", ascii "/l/s.jsonl", 1⟩ := by
  intro h
  have hsearch := h.search id ⟨[], [], [], []⟩ (ascii "\x7bb\x7d") 1 (-1)
  revert hsearch
  decide +kernel

end Minilog.Viewer
