import Minilog.Viewer.LiveLog

/-! `GET /lines` (`web-viewer/handlers.go`), and what it answers for a chain of records. -/
namespace Minilog.Viewer
open Lib
set_option autoImplicit false

inductive Direction
  | forward
  | backward
deriving DecidableEq

/-- The parsed query of a request; the sink it names is looked up before. `since` is -1 when it is absent. -/
structure LinesRequest where
  tail : Bool
  offset : ℕ
  count : ℕ
  dir : Direction
  since : ℤ
  filter : Filter
deriving DecidableEq

structure LinesResponse where
  lines : List Bytes
  offsets : List ℕ
  firstOffset : ℕ
  nextOffset : ℕ
  total : ℕ
  tailOffset : ℕ
deriving DecidableEq

def LinesResponse.entries (d : LinesResponse) : List (ℕ × Bytes) := d.offsets.zip d.lines

/-- The handler: the chain is built by one `os.Stat` for each candidate, and then read. -/
def getLines (view : ℕ → Directory) (lower : Bytes → Bytes) (maxResponseBytes : ℕ) (sink : Sink)
    (r : LinesRequest) : LinesResponse :=
  let fc := newFileChain view sink
  let reads := fun k => view (k + (candidates sink).length)
  let answer := fun page : Page => (⟨page.lines, page.offsets, page.firstOffset, page.nextOffset,
    fc.tailOffset, fc.tailOffset⟩ : LinesResponse)
  if fc.empty = true ∨ 0 ≤ r.since ∧ (fc.tailOffset : ℤ) ≤ r.since then
    ⟨[], [], 0, if r.tail then fc.tailOffset else r.offset, fc.tailOffset, fc.tailOffset⟩
  else if r.tail then answer (fc.readBackward reads lower maxResponseBytes fc.tailOffset r.count r.filter
    r.since)
  else
    match r.dir with
    | .backward => answer (fc.readBackward reads lower maxResponseBytes r.offset r.count r.filter r.since)
    | .forward =>
      let offset := if 0 ≤ r.since ∧ (r.offset : ℤ) < r.since then r.since.toNat else r.offset
      answer (fc.readForward reads lower maxResponseBytes offset r.count r.filter)

/-- Where a forward request starts, behind its clamp to `since`. -/
def LinesRequest.clamped (r : LinesRequest) : ℕ :=
  if 0 ≤ r.since ∧ (r.offset : ℤ) < r.since then r.since.toNat else r.offset

/-- Where a request that is not for the tail starts to read. -/
def LinesRequest.startOffset (r : LinesRequest) : ℕ :=
  match r.dir with
  | .backward => r.offset
  | .forward => r.clamped

/-! ## Answers for records -/

section Answers

variable (dir : Directory) (sink : Sink) (rs : List Record) (h : Stores dir sink rs)
variable (lower : Bytes → Bytes) (budget : ℕ) (r : LinesRequest)

/-- Nothing in front of `since` is returned. -/
theorem getLines_since (c : ℕ) (hsince : r.since = c) (hcount : 1 ≤ r.count) :
    ∀ p ∈ (getLines (fun _ => dir) lower budget sink r).entries, c ≤ p.1 := by
  have hback : ∀ o, ∀ p ∈ ((newFileChain (fun _ => dir) sink).readBackward
      (fun _ => dir) lower budget o r.count r.filter r.since).entries, c ≤ p.1 := by
    intro o p hp
    rw [FileChain.readBackward,
      readBackwardBy_chain lower dir sink r.filter r.count budget backwardChunkSize (by decide) (by decide),
      naiveBackward, pageOf_entries, List.mem_reverse] at hp
    have hwanted := List.mem_reverse.mp ((greedyFrom_initial weight r.count budget 0 0 _).subset hp)
    rw [wantedBackward_eq] at hwanted
    obtain ⟨q, -, hq⟩ := List.mem_filterMap.mp hwanted
    unfold selected at hq
    split at hq
    · rename_i hsel
      rw [← Option.some.inj hq]
      have := hsel.2.1
      omega
    · exact absurd hq (by simp)
  have hfwd : ∀ o, c ≤ o → ∀ p ∈ ((newFileChain (fun _ => dir) sink).readForward
      (fun _ => dir) lower budget o r.count r.filter).entries, c ≤ p.1 := by
    intro o ho p hp
    obtain ⟨left, -, -, -, hsees, -, -⟩ := readForward_tokens (r.filter.matches lower) r.count budget dir
      (newFileChain (fun _ => dir) sink) lower r.filter rfl hcount o
    have hmem : p ∈ kept (r.filter.matches lower) (seesAt dir (newFileChain (fun _ => dir) sink) o) := by
      rw [hsees]
      exact List.mem_append_left left hp
    have hge := seesAt_ge dir _ _ (newFileChain_holds dir sink) (newFileChain_total dir sink) o p
      (List.mem_filter.mp hmem).1
    omega
  unfold getLines
  simp only
  split
  · exact fun p hp => absurd hp List.not_mem_nil
  · split
    · exact hback _
    · split
      · exact hback _
      · apply hfwd
        rw [hsince]
        split
        · simp
        · omega

include h in
theorem getLines_tailOffset : (getLines (fun _ => dir) lower budget sink r).tailOffset =
    (recordsText rs).length := by
  have htotal := h.total dir sink rs
  unfold getLines
  simp only
  split
  · exact htotal
  · split
    · exact htotal
    · split
      · exact htotal
      · exact htotal

include h in
theorem Stores.empty_iff : (newFileChain (fun _ => dir) sink).empty = true ↔ rs = [] := by
  have hholds := newFileChain_holds dir sink
  obtain ⟨gs, htexts, hgs⟩ := h
  have hne : ∀ c ∈ chainTexts dir sink, c ≠ [] := by
    intro c hc
    have := (List.mem_filter.mp hc).2
    simpa using this
  have hlen := hholds.length_eq
  unfold FileChain.empty
  rw [List.isEmpty_iff, ← List.length_eq_zero_iff, hlen, htexts, List.length_map, List.length_eq_zero_iff]
  constructor
  · intro hnil
    rw [← hgs, hnil]
    rfl
  · intro hnil
    rw [List.eq_nil_iff_forall_not_mem]
    intro g hg
    rw [← hgs, List.flatten_eq_nil_iff] at hnil
    apply hne (recordsText g)
    · rw [htexts]
      exact List.mem_map_of_mem hg
    · rw [hnil g hg]
      rfl

include h in
/-- A poll without `since` from between two records. -/
theorem getLines_forward (hr : r.tail = false ∧ r.dir = .forward ∧ r.since = -1 ∧ 1 ≤ r.count)
    (before behind : List Record) (hrs : rs = before ++ behind) (ho : r.offset = (recordsText before).length) :
    let d := getLines (fun _ => dir) lower budget sink r
    let wanted := fun qs => kept (r.filter.matches lower) (located r.offset qs)
    ∃ mid rest, behind = mid ++ rest ∧ d.entries = wanted mid ∧
      d.entries = greedy weight r.count budget (wanted behind) ∧
      d.lines = d.entries.map Prod.snd ∧ d.nextOffset = r.offset + (recordsText mid).length := by
  intro d wanted
  obtain ⟨htail, hdir, hsince, hcount⟩ := hr
  by_cases hempty : rs = []
  · have hd : d = ⟨[], [], 0, r.offset, (newFileChain (fun _ => dir) sink).tailOffset,
        (newFileChain (fun _ => dir) sink).tailOffset⟩ := by
      unfold d getLines
      simp only
      rw [if_pos (.inl ((h.empty_iff dir sink rs).mpr hempty)), htail]
      rfl
    have hb : behind = [] := (List.append_eq_nil_iff.mp (hrs.symm.trans hempty)).2
    rw [hd, hb]
    exact ⟨[], [], rfl, rfl, rfl, rfl, rfl⟩
  · have hd : d =
        let page := (newFileChain (fun _ => dir) sink).readForward (fun _ => dir) lower budget r.offset r.count
          r.filter
        ⟨page.lines, page.offsets, page.firstOffset, page.nextOffset,
          (newFileChain (fun _ => dir) sink).tailOffset,
            (newFileChain (fun _ => dir) sink).tailOffset⟩ := by
      unfold d getLines
      simp only
      rw [if_neg, htail, hdir]
      · simp only [hsince]
        rfl
      · rw [h.empty_iff dir sink rs, hsince]
        exact fun hc => hc.elim hempty fun hc => absurd hc.1 (by decide)
    obtain ⟨mid, rest, hmid, hentries, hgreedy, hls, hos, hnext⟩ :=
      h.readForward_records dir sink rs lower r.filter r.count budget hcount before behind hrs
    rw [← ho] at hentries hgreedy hls hos hnext
    rw [hd]
    exact ⟨mid, rest, hmid, hentries, hgreedy, hls, hnext⟩

include h in
/-- The lines of an answer for the tail, or in forward direction from any offset, are records or the ends of
records, at their places. -/
theorem getLines_within (hr : r.tail = true ∨ r.dir = .forward) (hcount : 1 ≤ r.count) :
    ∀ p ∈ (getLines (fun _ => dir) lower budget sink r).entries, Within 0 rs p := by
  have htail : ∀ o, o = (recordsText rs).length →
      ∀ p ∈ ((newFileChain (fun _ => dir) sink).readBackward
        (fun _ => dir) lower budget o r.count r.filter r.since).entries,
        Within 0 rs p := by
    intro o ho p hp
    rw [ho, h.readBackward_records dir sink rs lower r.filter r.count budget r.since rs []
      (List.append_nil rs).symm, pageOf_entries, List.mem_reverse] at hp
    have hwanted := List.mem_reverse.mp ((greedyFrom_initial weight r.count budget 0 0 _).subset hp)
    exact located_within 0 rs p (List.mem_filter.mp (List.mem_filter.mp hwanted).1).1
  have hfwd : ∀ o, ∀ p ∈ ((newFileChain (fun _ => dir) sink).readForward
      (fun _ => dir) lower budget o r.count r.filter).entries, Within 0 rs p := by
    intro o p hp
    obtain ⟨left, -, -, -, hsees, -, -⟩ := readForward_tokens (r.filter.matches lower) r.count budget dir
      (newFileChain (fun _ => dir) sink) lower r.filter rfl hcount o
    have hmem : p ∈ kept (r.filter.matches lower) (seesAt dir (newFileChain (fun _ => dir) sink) o) := by
      rw [hsees]
      exact List.mem_append_left left hp
    exact h.seesAt_within dir sink rs o p (List.mem_filter.mp hmem).1
  unfold getLines
  simp only
  split
  · exact fun p hp => absurd hp List.not_mem_nil
  · split
    · exact htail _ (h.total dir sink rs)
    · next hno =>
      rw [hr.resolve_left hno]
      exact hfwd _

/-- The offset a page of lines starts at, or the one it was asked for when there are none. -/
def startOf (o : ℕ) (entries : List (ℕ × Bytes)) : ℕ := (entries.head?.map Prod.fst).getD o

theorem getLines_first (hr : r.tail = false ∧ r.dir = .forward) (p : ℕ × Bytes)
    (hp : (getLines (fun _ => dir) lower budget sink r).entries.head? = some p) :
    (getLines (fun _ => dir) lower budget sink r).firstOffset = p.1 := by
  unfold getLines LinesResponse.entries at *
  simp only [hr] at hp ⊢
  split at hp
  · exact absurd hp (by simp)
  · rename_i hread
    rw [if_neg hread]
    exact readForward_first _ _ lower budget _ r.count r.filter p hp

include h in
/-- The last lines without `since`, or the last lines in front of a place between two records. -/
theorem getLines_backward (hsince : r.since = -1) (before behind : List Record) (hrs : rs = before ++ behind)
    (hr : r.tail = true ∧ behind = [] ∨ r.tail = false ∧ r.dir = .backward ∧
      r.offset = (recordsText before).length) :
    let d := getLines (fun _ => dir) lower budget sink r
    d.entries = (greedy weight r.count budget
      (kept (r.filter.matches lower) (located 0 before)).reverse).reverse ∧
      d.lines = d.entries.map Prod.snd ∧ d.firstOffset = startOf (recordsText before).length d.entries := by
  intro d
  by_cases hempty : rs = []
  · have hb : before = [] := (List.append_eq_nil_iff.mp (hrs.symm.trans hempty)).1
    have hd : d.lines = [] ∧ d.offsets = [] ∧ d.firstOffset = 0 := by
      unfold d getLines
      simp only
      rw [if_pos (.inl ((h.empty_iff dir sink rs).mpr hempty))]
      exact ⟨rfl, rfl, rfl⟩
    unfold LinesResponse.entries
    rw [hd.1, hd.2.1, hd.2.2, hb]
    exact ⟨rfl, rfl, rfl⟩
  have hall : ∀ l : List (ℕ × Bytes), l.filter (fun p => decide (r.since < 0 ∨ r.since ≤ (p.1 : ℤ))) = l := by
    intro l
    apply List.filter_eq_self.mpr
    intro p _
    rw [hsince]
    rfl
  have hpage := h.readBackward_records dir sink rs lower r.filter r.count budget r.since before behind hrs
  rw [hall] at hpage
  have hd : d = let page := pageOf (recordsText before).length (greedy weight r.count budget
        (kept (r.filter.matches lower) (located 0 before)).reverse).reverse
      ⟨page.lines, page.offsets, page.firstOffset, page.nextOffset,
        (newFileChain (fun _ => dir) sink).tailOffset, (newFileChain (fun _ => dir) sink).tailOffset⟩ := by
    rw [← hpage]
    unfold d getLines
    simp only
    rw [if_neg]
    · cases hr with
      | inl htail =>
        have htotal : (newFileChain (fun _ => dir) sink).tailOffset = (recordsText before).length := by
          rw [FileChain.tailOffset, h.total dir sink rs, hrs, htail.2, List.append_nil]
        rw [if_pos htail.1, htotal]
      | inr hback =>
        rw [if_neg (by rw [hback.1]; decide), hback.2.1, hback.2.2]
    · rw [h.empty_iff dir sink rs, hsince]
      exact fun hc => hc.elim hempty fun hc => absurd hc.1 (by decide)
  rw [hd]
  generalize (greedy weight r.count budget
    (kept (r.filter.matches lower) (located 0 before)).reverse).reverse = entries
  have hentries := pageOf_entries (recordsText before).length entries
  refine ⟨hentries, ?_, ?_⟩
  · cases entries with
    | nil => rfl
    | cons p l => exact congrArg (List.map Prod.snd) hentries.symm
  · cases entries with
    | nil => rfl
    | cons p l => rfl

end Answers

end Minilog.Viewer
