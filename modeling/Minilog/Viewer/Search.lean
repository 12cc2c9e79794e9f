import Minilog.Viewer.Places

/-! `Search` (`web-viewer/reader.go`), a second way to address the lines of a chain.

`search_sees` says that it finds what a forward read from the start of the chain sees, at the offsets that read
counts, although it counts them itself and without the clamp at the end of a file. -/
namespace Minilog.Viewer
open Lib
set_option autoImplicit false

/-- The named results of `Search`. -/
structure Found where
  offsets : List ℕ
  totalMatches : ℕ
deriving DecidableEq

/-- What a search asks for; `qLower` is the lowered query. -/
structure Query where
  lower : Bytes → Bytes
  qLower : Bytes
  limit : ℕ
  filter : Filter
  since : ℤ

namespace Query

/-- The scan loop of one file over the tokens left, the next of them `physOffset` bytes into it. -/
def searchFile (r : Query) (start : ℕ) : List Bytes → ℕ → Found → Found
  | [], _, st => st
  | raw :: rest, physOffset, st =>
    let lineLen := raw.length + 1
    let logicalOffset := start + physOffset
    if 0 ≤ r.since ∧ (logicalOffset : ℤ) < r.since then r.searchFile start rest (physOffset + lineLen) st
    else if raw.length = 0 then r.searchFile start rest (physOffset + lineLen) st
    else if contains (r.lower raw) r.qLower = false then r.searchFile start rest (physOffset + lineLen) st
    else if r.filter.matches r.lower raw = false then r.searchFile start rest (physOffset + lineLen) st
    else
      r.searchFile start rest (physOffset + lineLen)
        ⟨if st.offsets.length < r.limit then st.offsets ++ [logicalOffset] else st.offsets, st.totalMatches + 1⟩

/-- The loop over the files; the whole of a file is scanned, whatever its size was when the chain was built. -/
def searchFiles (r : Query) (view : ℕ → Directory) : ℕ → List ChainFile → Found → Found
  | _, [], st => st
  | k, cf :: rest, st =>
    match view k cf.path with
    | none => r.searchFiles view (k + 1) rest st
    | some content => r.searchFiles view (k + 1) rest (r.searchFile cf.start (scanTokens content) 0 st)

end Query

def FileChain.search (fc : FileChain) (view : ℕ → Directory) (lower : Bytes → Bytes) (q : Bytes) (limit : ℕ)
    (f : Filter) (since : ℤ) : Found :=
  Query.searchFiles ⟨lower, lower q, limit, f, since⟩ view 0 fc.files ⟨[], 0⟩

/-! ## What a search counts -/

/-- The tokens with the offsets `Search` counts for them. -/
def counted : ℕ → List Bytes → List (ℕ × Bytes)
  | _, [] => []
  | cur, raw :: rest => (cur, raw) :: counted (cur + (raw.length + 1)) rest

/-- Without the clamp the offsets are the same: it only moves the position behind an unterminated line, the
last. -/
theorem placed_eq_counted (t : Bytes) (cur fileEnd : ℕ) (h : cur + t.length ≤ fileEnd) :
    placed fileEnd cur (scanTokens t) = counted cur (scanTokens t) := by
  induction hn : t.length using Nat.strongRecOn generalizing t cur with
  | ind n ih =>
    cases scanTokens_cases t with
    | inl hnone =>
      rw [hnone]
      rfl
    | inr hfirst =>
      obtain ⟨l, p, s, ht, hp, -, -, htoks⟩ := hfirst
      rw [htoks, placed, counted]
      cases hp with
      | inr hlast =>
        rw [hlast.2.2]
        rfl
      | inl hterm =>
        have hlen : t.length = l.length + 1 + s.length := by
          rw [ht, hterm, List.length_append, List.length_append]; rfl
        have hcr := (dropCR_length l).1
        have hstep : step fileEnd cur (dropCR l) = cur + ((dropCR l).length + 1) := Nat.min_eq_left (by omega)
        rw [hstep, ih s.length (by omega) s _ (by omega) rfl]

section Search

variable (r : Query)

/-- The lines a search hits among those the filter keeps. -/
def Query.hits (lines : List (ℕ × Bytes)) : List (ℕ × Bytes) :=
  lines.filter fun p => decide (r.since < 0 ∨ r.since ≤ (p.1 : ℤ)) && contains (r.lower p.2) r.qLower

def Query.keeps (raw : Bytes) : Bool := r.filter.matches r.lower raw

/-- What a search has found when it has come across the lines `l`. -/
def Query.result (st : Found) (l : List (ℕ × Bytes)) : Found :=
  ⟨st.offsets ++ (l.map Prod.fst).take (r.limit - st.offsets.length), st.totalMatches + l.length⟩

theorem Query.hits_append (l m : List (ℕ × Bytes)) : r.hits (l ++ m) = r.hits l ++ r.hits m :=
  List.filter_append ..

theorem Query.result_append (st : Found) (l m : List (ℕ × Bytes)) (hst : st.offsets.length ≤ r.limit) :
    r.result (r.result st l) m = r.result st (l ++ m) := by
  unfold Query.result
  simp only [Found.mk.injEq, List.length_append, List.map_append, List.append_assoc, List.append_cancel_left_eq]
  refine ⟨?_, by omega⟩
  rw [List.take_append, List.length_take, List.length_map]
  congr 2
  omega

theorem Query.result_bound (st : Found) (l : List (ℕ × Bytes)) (hst : st.offsets.length ≤ r.limit) :
    (r.result st l).offsets.length ≤ r.limit := by
  change (st.offsets ++ _).length ≤ r.limit
  rw [List.length_append, List.length_take]
  omega

/-- One line: the four tests of the loop are one. -/
theorem Query.searchFile_cons (start phys : ℕ) (raw : Bytes) (rest : List Bytes) (st : Found)
    (hst : st.offsets.length ≤ r.limit) :
    r.searchFile start (raw :: rest) phys st =
      r.searchFile start rest (phys + (raw.length + 1))
      (r.result st (r.hits (kept r.keeps [(start + phys, raw)]))) := by
  have hnone : r.result st [] = st := by
    unfold Query.result
    simp
  have hone : r.result st [(start + phys, raw)] =
      ⟨if st.offsets.length < r.limit then st.offsets ++ [start + phys] else st.offsets,
        st.totalMatches + 1⟩ := by
    unfold Query.result
    by_cases hlim : st.offsets.length < r.limit
    · rw [if_pos hlim, List.take_of_length_le (by rw [List.length_map, List.length_singleton]; omega)]
      rfl
    · have h0 : r.limit - st.offsets.length = 0 := by omega
      rw [if_neg hlim, h0, List.take_zero, List.append_nil]
      rfl
  rw [Query.searchFile, kept_single]
  by_cases hsince : 0 ≤ r.since ∧ ((start + phys : ℕ) : ℤ) < r.since
  · have hbelow : decide (r.since < 0 ∨ r.since ≤ ((start + phys : ℕ) : ℤ)) = false :=
      decide_eq_false (by omega)
    rw [if_pos hsince]
    split
    · rw [Query.hits, List.filter_cons_of_neg (by simp only [hbelow, Bool.false_and, Bool.false_eq_true,
        not_false_eq_true]), List.filter_nil, hnone]
    · exact congrArg _ hnone.symm
  have habove : decide (r.since < 0 ∨ r.since ≤ ((start + phys : ℕ) : ℤ)) = true := decide_eq_true (by omega)
  rw [if_neg hsince]
  by_cases hblank : raw.length = 0
  · rw [if_pos hblank, if_neg (by omega)]
    exact congrArg _ hnone.symm
  rw [if_neg hblank]
  by_cases hkeep : 0 < raw.length ∧ r.keeps raw = true
  · have hmatch : ¬ r.filter.matches r.lower raw = false := by
      change ¬ r.keeps raw = false
      rw [hkeep.2]
      exact Bool.noConfusion
    rw [if_pos hkeep, if_neg hmatch]
    by_cases hq : contains (r.lower raw) r.qLower = false
    · rw [if_pos hq, Query.hits, List.filter_cons_of_neg (by simp [hq]), List.filter_nil, hnone]
    · rw [if_neg hq, Query.hits, List.filter_cons_of_pos (by simpa only [habove, Bool.true_and,
        Bool.not_eq_false] using hq), List.filter_nil, hone]
  · have hmiss : r.filter.matches r.lower raw = false := by
      rw [← Bool.not_eq_true]
      exact fun h => hkeep ⟨by omega, h⟩
    rw [if_neg hkeep, if_pos hmiss, ite_self]
    exact congrArg _ hnone.symm

theorem Query.searchFile_spec (start : ℕ) (toks : List Bytes) (phys : ℕ) (st : Found)
    (hst : st.offsets.length ≤ r.limit) :
    r.searchFile start toks phys st = r.result st (r.hits (kept r.keeps (counted (start + phys) toks))) := by
  induction toks generalizing phys st with
  | nil =>
    rw [Query.searchFile]
    unfold Query.result
    simp [counted, kept, Query.hits]
  | cons raw toks ih =>
    rw [r.searchFile_cons start phys raw toks st hst, ih _ _ (r.result_bound st _ hst),
      r.result_append st _ _ hst, counted, kept_cons _ _ (counted _ toks), r.hits_append, Nat.add_assoc]

variable (dir : Directory)

theorem Query.searchFiles_spec (k o : ℕ) (files : List ChainFile) (texts : List Bytes)
    (h : Holds dir o files texts) (st : Found) (hst : st.offsets.length ≤ r.limit) :
    r.searchFiles (fun _ => dir) k files st = r.result st (r.hits (kept r.keeps (sees dir files 0))) := by
  induction h generalizing k st with
  | nil o =>
    rw [Query.searchFiles]
    unfold Query.result
    simp [sees, kept, Query.hits]
  | cons o f fs c cs start content size nonempty tail ih =>
    have hwindow : window c f 0 = c := by
      unfold window
      rw [List.drop_zero, size, Nat.sub_zero, List.take_length]
    have htoks : placed (f.start + f.size) (f.start + 0) (fileTokens dir f 0) =
        counted (f.start + 0) (scanTokens c) := by
      unfold fileTokens
      rw [content]
      simp only [hwindow]
      exact placed_eq_counted c (f.start + 0) _ (by rw [size]; omega)
    rw [Query.searchFiles, content]
    simp only
    rw [r.searchFile_spec f.start _ 0 st hst, ih _ _ (r.result_bound st _ hst), r.result_append st _ _ hst,
      sees, kept_append, r.hits_append, htoks]

end Search

/-- A search hits the lines a forward read from the start sees, at the offsets that read counts. -/
theorem search_sees (dir : Directory) (fc : FileChain) (texts : List Bytes) (h : Holds dir 0 fc.files texts)
    (lower : Bytes → Bytes) (q : Bytes) (limit : ℕ) (f : Filter) (since : ℤ) :
    let hits := Query.hits ⟨lower, lower q, limit, f, since⟩ (kept (f.matches lower) (sees dir fc.files 0))
    fc.search (fun _ => dir) lower q limit f since = ⟨(hits.map Prod.fst).take limit, hits.length⟩ := by
  intro hits
  rw [FileChain.search, Query.searchFiles_spec _ dir 0 0 fc.files texts h ⟨[], 0⟩ (Nat.zero_le _)]
  change (⟨[] ++ (hits.map Prod.fst).take (limit - 0), 0 + hits.length⟩ : Found) = _
  rw [List.nil_append, Nat.sub_zero, Nat.zero_add]

/-! ## Search and paging -/

section Agree

variable (lower : Bytes → Bytes) (dir : Directory) (sink : Sink) (filter : Filter)

theorem linesOf_texts (o : ℕ) (texts : List Bytes) (t : Bytes) (ht : t ∈ texts) :
    ∃ q, ∀ p ∈ splitLines q t, p ∈ linesOf o texts := by
  induction texts generalizing o with
  | nil => exact absurd ht List.not_mem_nil
  | cons c cs ih =>
    cases List.mem_cons.mp ht with
    | inl h =>
      rw [h]
      exact ⟨o, fun p hp => List.mem_append_left _ hp⟩
    | inr h =>
      obtain ⟨q, hq⟩ := ih (o + c.length) h
      exact ⟨q, fun p hp => List.mem_append_right _ (hq p hp)⟩

/-- The scanner hands plain lines on as they stand, at the offsets where they stand. -/
theorem kept_sees_plain (hlines : ∀ p ∈ chainLines dir sink, p.2.length < maxLineBytes ∧
    p.2.getLast? ≠ some cr) :
    kept (filter.matches lower) (sees dir (newFileChain (fun _ => dir) sink).files 0) =
      kept (filter.matches lower) (chainLines dir sink) := by
  have hcr : ∀ t ∈ chainTexts dir sink, NoCRLF t := by
    intro t ht l hl
    obtain ⟨o, hmem⟩ := linesOf_texts 0 _ t ht
    obtain ⟨q, hq⟩ := closedLines_subset t o l hl
    exact (hlines (q, l) (hmem _ hq)).2
  have htoken : ∀ p ∈ chainLines dir sink, token p = p := fun p hp => by
    rw [token, dropCR, if_neg (hlines p hp).2]
  rw [kept_sees _ dir 0 _ _ (newFileChain_holds dir sink) (fun p hp => (hlines p hp).1) hcr,
    show (linesOf 0 (chainTexts dir sink)).map token = chainLines dir sink from
      (List.map_congr_left htoken).trans (List.map_id' _)]

/-- A page of one line, read where a line stands that the filter keeps, is that line. -/
theorem readForward_line (maxResponseBytes : ℕ)
    (hlines : ∀ p ∈ chainLines dir sink, p.2.length < maxLineBytes ∧ p.2.getLast? ≠ some cr) (p : ℕ × Bytes)
    (hp : p ∈ kept (filter.matches lower) (chainLines dir sink)) :
    let page := (newFileChain (fun _ => dir) sink).readForward (fun _ => dir) lower maxResponseBytes p.1 1 filter
    page.lines = [p.2] ∧ page.offsets = [p.1] := by
  intro page
  obtain ⟨hmem, hkeep⟩ := List.mem_filter.mp hp
  obtain ⟨f, a, t, later, cs, hat, hfirst, -⟩ := line_at dir _ _ (newFileChain_holds dir sink) p hmem
  have hin := hat.inFront (filter.matches lower) dir _ p.1 f a t later cs
  have hahead : ∃ more, ahead (filter.matches lower) p.1 t cs = p :: more := by
    refine ⟨kept (filter.matches lower) (linesAfter p.1 t) ++
      kept (filter.matches lower) (linesOf (p.1 + t.length) cs), ?_⟩
    rw [ahead, splitLines, hfirst, kept_cons_pos _ (p.1, p.2) _ hkeep, List.cons_append]
  obtain ⟨more, hmore⟩ := hahead
  rw [hmore] at hin
  obtain ⟨hentries, hls, hos, -⟩ := readForward_spec (filter.matches lower) 1 maxResponseBytes dir _
    (chain_plain dir sink hlines) _ (newFileChain_holds dir sink) (newFileChain_total dir sink) lower filter rfl
    (Nat.le_refl 1) p.1 _ hin
  rw [greedy_one] at hentries
  exact ⟨by rw [hls, hentries]; rfl, by rw [hos, hentries]; rfl⟩

/-- Search and forward paging agree: the total is the number of lines that complete paging enumerates, at or
behind `since` and with the query in them, the offsets are those of the first `limit` of them, and a read of
one line at such an offset returns that line. -/
theorem search_agrees_with_paging (count maxResponseBytes : ℕ) (q : Bytes) (limit : ℕ) (since : ℤ)
    (hcount : 1 ≤ count)
    (hlines : ∀ p ∈ chainLines dir sink, p.2.length < maxLineBytes ∧ p.2.getLast? ≠ some cr) :
    let fc := newFileChain (fun _ => dir) sink
    ∃ pages, Paging (fun o => fc.readForward (fun _ => dir) lower maxResponseBytes o count filter)
        Page.entries Page.nextOffset 0 pages ∧
      let hits := (pages.flatMap fun p => p.2.entries).filter fun p =>
        decide (since < 0 ∨ since ≤ (p.1 : ℤ)) && contains (lower p.2) (lower q)
      fc.search (fun _ => dir) lower q limit filter since = ⟨(hits.map Prod.fst).take limit, hits.length⟩ ∧
      ∀ p ∈ hits, ∀ budget, (fc.readForward (fun _ => dir) lower budget p.1 1 filter).lines = [p.2] ∧
        (fc.readForward (fun _ => dir) lower budget p.1 1 filter).offsets = [p.1] := by
  intro fc
  obtain ⟨pages, hpaging, hflat, -⟩ := forward_pages lower dir sink filter count maxResponseBytes hcount hlines
  refine ⟨pages, hpaging, ?_⟩
  intro hits
  have hhits : hits =
      Query.hits ⟨lower, lower q, limit, filter, since⟩ (kept (filter.matches lower) (sees dir fc.files 0)) := by
    unfold hits
    rw [hflat, kept_sees_plain lower dir sink filter hlines]
    rfl
  refine ⟨?_, ?_⟩
  · rw [hhits]
    exact search_sees dir fc _ (newFileChain_holds dir sink) lower q limit filter since
  · intro p hp budget
    have hkept : p ∈ kept (filter.matches lower) (chainLines dir sink) := by
      rw [← hflat]
      exact (List.mem_filter.mp hp).1
    exact readForward_line lower dir sink filter budget hlines p hkept

end Agree

theorem search_cutShort :
    ∃ pages, Paging (fun o => (newFileChain (fun _ => cutShort) ⟨ascii "s", ascii "/l/s.jsonl", 1⟩).readForward
        (fun _ => cutShort) id 3 o 2 ⟨[], [], [], []⟩) Page.entries Page.nextOffset 0 pages ∧
      (((pages.flatMap fun p => p.2.entries).filter fun p =>
        decide ((1 : ℤ) < 0 ∨ (1 : ℤ) ≤ (p.1 : ℤ)) && contains p.2 (ascii "\x7b")).map Prod.fst).take 1 =
          [5] := by
  have hlines : ∀ p ∈ chainLines cutShort ⟨ascii "s", ascii "/l/s.jsonl", 1⟩,
      p.2.length < maxLineBytes ∧ p.2.getLast? ≠ some cr := by decide +kernel
  obtain ⟨pages, hpaging, hresult, -⟩ :=
    search_agrees_with_paging id cutShort ⟨ascii "s", ascii "/l/s.jsonl", 1⟩ ⟨[], [], [], []⟩ 2 3
      (ascii "\x7b") 1 1 (by decide) hlines
  have hvalue : (newFileChain (fun _ => cutShort) ⟨ascii "s", ascii "/l/s.jsonl", 1⟩).search
      (fun _ => cutShort) id (ascii "\x7b") 1 ⟨[], [], [], []⟩ 1 = ⟨[5], 2⟩ := by decide +kernel
  exact ⟨pages, hpaging, (congrArg Found.offsets (hresult.symm.trans hvalue))⟩

end Minilog.Viewer
