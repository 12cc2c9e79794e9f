import Minilog.Viewer.Chain

/-! The chunked walk visits the lines of a file from the last to the first.

`visit` is one line seen whole. `walkChunk_spec`, `walkFile_spec` and `walkFiles_spec` show that the
walk through chunks does what visiting the lines one by one does, wherever the chunks are cut: the
bytes of the line being built are the segment of the chunk and the carried tail (`Carries`). -/
namespace Minilog.Viewer
open Lib
set_option autoImplicit false

/-- What a walk has collected, without the line being built. -/
structure Acc where
  collected : List (ℕ × Bytes)
  collectedBytes : ℕ
  stop : Bool
deriving DecidableEq

def Backward.acc (w : Backward) : Acc := ⟨w.collected, w.collectedBytes, w.stop⟩

/-- The carried fragment stands for `tail`: it is the tail, or it was given up as too long. -/
def Carries (w : Backward) (tail : Bytes) : Prop :=
  w.carryTooLong = false ∧ w.carry = tail ∨ w.carryTooLong = true ∧ w.carry = [] ∧ maxLineBytes < tail.length

namespace Request

variable (r : Request)

def Active (x : Acc) : Prop := x.stop = false ∧ x.collected.length < r.count

/-- A complete line, not too long and not in front of `since`. -/
def add (x : Acc) (lineStart : ℕ) (raw : Bytes) : Acc :=
  if 0 < raw.length ∧ r.keeps raw = true then
    if 0 < x.collected.length ∧ r.maxResponseBytes < x.collectedBytes + raw.length then { x with stop := true }
    else ⟨x.collected ++ [(lineStart, raw)], x.collectedBytes + raw.length, x.stop⟩
  else x

/-- One line, seen whole. -/
def visit (x : Acc) (p : ℕ × Bytes) : Acc :=
  if x.stop = false ∧ x.collected.length < r.count then
    if 0 ≤ r.since ∧ (p.1 : ℤ) < r.since then { x with stop := true }
    else if maxLineBytes < p.2.length then x
    else r.add x p.1 (trimRightCR p.2)
  else x

theorem visit_inactive (x : Acc) (p : ℕ × Bytes) (h : ¬ r.Active x) : r.visit x p = x := if_neg h

theorem visit_active (x : Acc) (p : ℕ × Bytes) (h : r.Active x) :
    r.visit x p = if 0 ≤ r.since ∧ (p.1 : ℤ) < r.since then { x with stop := true }
      else if maxLineBytes < p.2.length then x else r.add x p.1 (trimRightCR p.2) := if_pos h

theorem foldl_visit_inactive (l : List (ℕ × Bytes)) (x : Acc) (h : ¬ r.Active x) : l.foldl r.visit x = x := by
  induction l with
  | nil => rfl
  | cons p l ih => rw [List.foldl_cons, r.visit_inactive x p h, ih]

theorem active_iff (w : Backward) : r.Active w.acc ↔ w.stop = false ∧ r.full w = false := by
  unfold Active full Backward.acc
  simp

theorem collect_spec (lineStart : ℕ) (raw : Bytes) (w : Backward) :
    (r.collect lineStart raw w).acc = r.add w.acc lineStart raw ∧
      (r.collect lineStart raw w).carry = w.carry ∧
      (r.collect lineStart raw w).carryTooLong = w.carryTooLong := by
  unfold collect add Backward.acc
  simp only
  split
  · split
    · exact ⟨rfl, rfl, rfl⟩
    · exact ⟨rfl, rfl, rfl⟩
  · exact ⟨rfl, rfl, rfl⟩

/-- A segment and the carried tail make a line. -/
theorem take_join (start : ℕ) (seg tail : Bytes) (physPos : ℕ) (w : Backward) (hw : r.Active w.acc)
    (hc : Carries w tail) :
    (r.take start seg physPos true w).acc = r.visit w.acc (start + physPos, seg ++ tail) ∧
      (r.Active (r.take start seg physPos true w).acc → Carries (r.take start seg physPos true w) []) := by
  rw [r.visit_active w.acc _ hw]
  unfold take
  simp only [if_true]
  by_cases hsince : 0 ≤ r.since ∧ ((start + physPos : ℕ) : ℤ) < r.since
  · rw [if_pos hsince, if_pos hsince]
    exact ⟨rfl, fun h => absurd h.1 (by simp [Backward.acc])⟩
  rw [if_neg hsince, if_neg hsince]
  rcases hc with ⟨hlong, rfl⟩ | ⟨hlong, hcarry, hlen⟩
  · rw [List.length_append]
    by_cases hmax : maxLineBytes < seg.length + w.carry.length
    · rw [if_pos (.inr hmax), if_pos hmax]
      exact ⟨rfl, fun _ => .inl ⟨rfl, rfl⟩⟩
    · rw [if_neg (by simp [hlong, hmax]), if_neg hmax]
      obtain ⟨hacc, hcarry, hlong'⟩ := r.collect_spec (start + physPos) (trimRightCR (seg ++ w.carry))
        { w with carry := [], carryTooLong := false }
      exact ⟨hacc, fun _ => .inl ⟨hlong', hcarry⟩⟩
  · rw [if_pos (.inl hlong), if_pos (by rw [List.length_append]; omega)]
    exact ⟨rfl, fun _ => .inl ⟨rfl, rfl⟩⟩

/-- A segment inside a chunk is a line by itself. -/
theorem take_alone (start : ℕ) (seg : Bytes) (physPos : ℕ) (w : Backward) (hw : r.Active w.acc)
    (hseg : seg.length ≤ maxLineBytes) (hc : Carries w []) :
    (r.take start seg physPos false w).acc = r.visit w.acc (start + physPos, seg) ∧
      Carries (r.take start seg physPos false w) [] := by
  rw [r.visit_active w.acc _ hw]
  unfold take
  simp only [Bool.false_eq_true, if_false]
  by_cases hsince : 0 ≤ r.since ∧ ((start + physPos : ℕ) : ℤ) < r.since
  · rw [if_pos hsince, if_pos hsince]
    exact ⟨rfl, hc⟩
  · rw [if_neg hsince, if_neg hsince, if_neg (by omega)]
    obtain ⟨hacc, hcarry, hlong⟩ := r.collect_spec (start + physPos) (trimRightCR seg) w
    refine ⟨hacc, ?_⟩
    unfold Carries at hc ⊢
    rwa [hcarry, hlong]

/-! ## One chunk -/

/-- The lines of `d` that start behind an LF at or after position `pos`, visited from the last on. -/
def seen (x : Acc) (start : ℕ) (d : Bytes) (pos : ℕ) : Acc :=
  (linesAfter (start + pos) (d.drop pos)).reverse.foldl r.visit x

theorem seen_lf (x : Acc) (start : ℕ) (d : Bytes) (pos : ℕ) (h : d[pos]? = some lf) :
    r.seen x start d pos = r.visit (r.seen x start d (pos + 1)) (start + pos + 1,
      firstLine (d.drop (pos + 1))) := by
  unfold seen
  rw [List.drop_eq_getElem?_toList_append, h, Option.toList_some, List.singleton_append, linesAfter_cons,
    if_pos rfl, splitLines, List.reverse_cons, List.foldl_append, Nat.add_assoc]
  rfl

theorem seen_other (x : Acc) (start : ℕ) (d : Bytes) (pos : ℕ) (h : d[pos]? ≠ some lf) :
    r.seen x start d pos = r.seen x start d (pos + 1) := by
  unfold seen
  rw [List.drop_eq_getElem?_toList_append]
  cases hd : d[pos]? with
  | none =>
    rw [List.drop_of_length_le (Nat.le_succ_of_le (List.getElem?_eq_none_iff.mp hd))]
    rfl
  | some c =>
    have hc : c ≠ lf := fun e => h (by rw [hd, e])
    rw [Option.toList_some, List.singleton_append, linesAfter_cons, if_neg hc, Nat.add_assoc]

/-- Once the walk is over, the bytes further down change nothing. -/
theorem seen_inactive (x : Acc) (start : ℕ) (d : Bytes) (pos n : ℕ)
    (h : ¬ r.Active (r.seen x start d (pos + n))) :
    r.seen x start d pos = r.seen x start d (pos + n) := by
  induction n with
  | zero => rfl
  | succ n ih =>
    have hstep : r.seen x start d (pos + n) = r.seen x start d (pos + (n + 1)) := by
      by_cases hc : d[pos + n]? = some lf
      · rw [r.seen_lf x start d (pos + n) hc]
        exact r.visit_inactive _ _ h
      · exact r.seen_other x start d (pos + n) hc
    rw [ih (by rw [hstep]; exact h), hstep]

theorem firstLine_drop_lf (d : Bytes) (pos : ℕ) (h : d[pos]? = some lf) : firstLine (d.drop pos) = [] := by
  rw [List.drop_eq_getElem?_toList_append, h]
  rfl

theorem firstLine_drop_other (d : Bytes) (pos : ℕ) (c : UInt8) (h : d[pos]? = some c) (hc : c ≠ lf) :
    firstLine (d.drop pos) = c :: firstLine (d.drop (pos + 1)) := by
  rw [List.drop_eq_getElem?_toList_append, h, Option.toList_some, List.singleton_append, firstLine_cons c _ hc]

/-- The line that ends the segment `[i + 1, stop)` is taken whole. -/
theorem take_spec (start : ℕ) (buf tail seg : Bytes) (pos stop : ℕ)
    (w : Backward) (hw : r.Active w.acc) (hseg : seg.length ≤ maxLineBytes)
    (hcarry : Carries w (if stop = buf.length then tail else [])) :
    (r.take start seg pos (stop == buf.length) w).acc =
        r.visit w.acc (start + pos, seg ++ (if stop = buf.length then tail else [])) ∧
      (r.Active (r.take start seg pos (stop == buf.length) w).acc →
        Carries (r.take start seg pos (stop == buf.length) w) []) := by
  by_cases hs : stop = buf.length
  · rw [if_pos hs] at hcarry ⊢
    rw [beq_iff_eq.mpr hs]
    exact r.take_join start seg tail pos w hw hcarry
  · rw [if_neg hs] at hcarry ⊢
    rw [beq_eq_false_iff_ne.mpr hs, List.append_nil]
    obtain ⟨hacc, hc⟩ := r.take_alone start seg pos w hw hseg hcarry
    exact ⟨hacc, fun _ => hc⟩

/-- What the walk knows at position `chunkStart + i`: everything further up is visited, and the line
being built is the segment `[i, stop)` of the chunk, with the carried `tail` if it reaches the end. -/
structure Building (x : Acc) (start : ℕ) (d : Bytes) (chunkStart : ℕ) (buf tail : Bytes) (i stop : ℕ)
    (w : Backward) :
    Prop where
  seen : w.acc = r.seen x start d (chunkStart + i)
  line : r.Active w.acc →
    firstLine (d.drop (chunkStart + i)) = (buf.drop i).take (stop - i) ++
    (if stop = buf.length then tail else []) ∧
      Carries w (if stop = buf.length then tail else [])

theorem walkChunk_spec (x : Acc) (start : ℕ) (d : Bytes) (chunkStart : ℕ) (buf tail : Bytes)
    (hbuf : ∀ i, i < buf.length → d[chunkStart + i]? = buf[i]?) (hsize : buf.length ≤ maxLineBytes)
    (i stop : ℕ) (w : Backward) (hi : i ≤ stop) (hstop : stop ≤ buf.length)
    (h : r.Building x start d chunkStart buf tail i stop w) :
    ∃ stop' w', r.walkChunk start chunkStart buf i stop w = (stop', w') ∧ stop' ≤ buf.length ∧
      r.Building x start d chunkStart buf tail 0 stop' w' := by
  induction i generalizing stop w with
  | zero => exact ⟨stop, w, rfl, hstop, h⟩
  | succ i ih =>
    rw [walkChunk]
    by_cases hw : r.Active w.acc
    · rw [if_pos ((r.active_iff w).mp hw)]
      obtain ⟨hline, hcarry⟩ := h.line hw
      have hd := hbuf i (by omega)
      by_cases hc : buf[i]? = some lf
      · rw [if_pos hc]
        rw [hc] at hd
        have hseg : ((buf.drop (i + 1)).take (stop - (i + 1))).length ≤ maxLineBytes := by
          rw [List.length_take, List.length_drop]
          omega
        obtain ⟨hacc, hcarry'⟩ := r.take_spec start buf tail ((buf.drop (i + 1)).take (stop - (i + 1)))
          (chunkStart + i + 1) stop w hw hseg hcarry
        apply ih i _ (Nat.le_refl i) (by omega)
        refine ⟨?_, fun ha => ⟨?_, ?_⟩⟩
        · rw [hacc, r.seen_lf x start d (chunkStart + i) hd, ← hline, h.seen]
          rfl
        · rw [firstLine_drop_lf d _ hd, Nat.sub_self, if_neg (by omega)]
          rfl
        · rw [if_neg (by omega)]
          exact hcarry' ha
      · rw [if_neg hc]
        apply ih stop w (by omega) hstop
        refine ⟨?_, fun _ => ⟨?_, hcarry⟩⟩
        · rw [h.seen, r.seen_other x start d (chunkStart + i) (hd ▸ hc)]
          rfl
        · have hb : i < buf.length := by omega
          have hne : buf[i] ≠ lf := fun e => hc (by rw [List.getElem?_eq_getElem hb, e])
          rw [List.getElem?_eq_getElem hb] at hd
          rw [firstLine_drop_other d (chunkStart + i) _ hd hne, Nat.add_assoc, hline,
            List.drop_eq_getElem_cons hb, show stop - i = (stop - (i + 1)) + 1 by omega,
            List.take_succ_cons, List.cons_append]
    · rw [if_neg (fun ha => hw ((r.active_iff w).mpr ha))]
      refine ⟨stop, w, rfl, hstop, ?_, fun ha => absurd ha hw⟩
      rw [h.seen, Nat.add_zero]
      rw [h.seen] at hw
      exact (r.seen_inactive x start d chunkStart (i + 1) hw).symm

/-! ## One file -/

theorem readChunk_eq (dir : Directory) (path c : Bytes) (hc : dir path = some c) (n lo hi : ℕ)
    (hn : n ≤ c.length) (hlo : lo ≤ hi) (hhi : hi ≤ n) :
    ∃ buf, readChunk dir path lo hi = some buf ∧ buf.length = hi - lo ∧
      ∀ i, i < buf.length → (c.take n)[lo + i]? = buf[i]? := by
  have hlen : ((c.drop lo).take (hi - lo)).length = hi - lo := by
    rw [List.length_take, List.length_drop]
    omega
  refine ⟨(c.drop lo).take (hi - lo), ?_, hlen, ?_⟩
  · simp only [readChunk, hc]
    rw [if_neg (by omega)]
  · intro i hi'
    rw [List.getElem?_take_of_lt (by omega), List.getElem?_take_of_lt (by omega), List.getElem?_drop]

theorem not_active (w : Backward) (h : w.stop = true ∨ r.full w = true) : ¬ r.Active w.acc := by
  intro ha
  obtain ⟨hs, hf⟩ := (r.active_iff w).mp ha
  rcases h with h | h
  · rw [hs] at h
    exact Bool.false_ne_true h
  · rw [hf] at h
    exact Bool.false_ne_true h

theorem active_of_not (w : Backward) (h : ¬ (w.stop = true ∨ r.full w = true)) : r.Active w.acc := by
  rw [not_or, Bool.not_eq_true, Bool.not_eq_true] at h
  exact (r.active_iff w).mpr h

theorem keepTail_carries (buf tail : Bytes) (stop : ℕ) (w : Backward) (hstop : stop ≤ buf.length)
    (h : Carries w tail) : Carries (keepTail buf stop w) (buf.take stop ++ tail) ∧
    (keepTail buf stop w).acc = w.acc := by
  have hlen : (buf.take stop ++ tail).length = stop + tail.length := by
    rw [List.length_append, List.length_take, Nat.min_eq_left hstop]
  unfold keepTail
  rcases h with ⟨hlong, hcarry⟩ | ⟨hlong, hcarry, hmax⟩
  · by_cases hmax : maxLineBytes < w.carry.length + stop
    · rw [if_pos (.inr hmax)]
      rw [hcarry] at hmax
      exact ⟨.inr ⟨rfl, rfl, by omega⟩, rfl⟩
    · rw [if_neg (by simp [hlong, hmax])]
      exact ⟨.inl ⟨hlong, by rw [hcarry]⟩, rfl⟩
  · rw [if_pos (.inl hlong)]
    exact ⟨.inr ⟨rfl, rfl, by omega⟩, rfl⟩

/-- One file, cut at `readEnd` and with `d` in front of the cut: the walk visits all its lines. -/
theorem walkFile_spec (dir : Directory) (chunk : ℕ) (hchunk : 1 ≤ chunk) (hsize : chunk ≤ maxLineBytes)
    (cf : ChainFile) (c : Bytes) (hc : dir cf.path = some c) (n : ℕ) (hn : n ≤ c.length) (x : Acc)
    (fuel readEnd : ℕ) (w : Backward) (hfuel : readEnd ≤ fuel) (hpos : 0 < readEnd) (hle : readEnd ≤ n)
    (hseen : w.acc = r.seen x cf.start (c.take n) readEnd)
    (hcarry : r.Active w.acc → Carries w (firstLine ((c.take n).drop readEnd))) :
    (r.walkFile (fun _ => dir) chunk cf fuel readEnd w).acc =
      (splitLines cf.start (c.take n)).reverse.foldl r.visit x := by
  have hall : (splitLines cf.start (c.take n)).reverse.foldl r.visit x =
      r.visit (r.seen x cf.start (c.take n) 0) (cf.start, firstLine (c.take n)) := by
    rw [splitLines, List.reverse_cons, List.foldl_append]
    rfl
  -- a walk that is over at position `pos` has the result already
  have hover : ∀ (v : Backward) (pos : ℕ), ¬ r.Active v.acc → v.acc = r.seen x cf.start (c.take n) pos →
      v.acc = r.visit (r.seen x cf.start (c.take n) 0) (cf.start, firstLine (c.take n)) := by
    intro v pos hv hvs
    rw [hvs] at hv
    have hsame := r.seen_inactive x cf.start (c.take n) 0 pos (by rwa [Nat.zero_add])
    rw [Nat.zero_add] at hsame
    rw [hvs, hsame, r.visit_inactive _ _ hv]
  rw [hall]
  induction fuel generalizing readEnd w with
  | zero => omega
  | succ fuel ih =>
    rw [walkFile]
    by_cases hw : r.Active w.acc
    · obtain ⟨hs, hf⟩ := (r.active_iff w).mp hw
      obtain ⟨buf, hread, hlen, hbuf⟩ :=
        readChunk_eq dir cf.path c hc n (readEnd - chunk) readEnd hn (by omega) hle
      have hend : readEnd - chunk + buf.length = readEnd := by omega
      have hbuild : r.Building x cf.start (c.take n) (readEnd - chunk) buf (firstLine ((c.take n).drop readEnd))
          buf.length buf.length { w with reads := w.reads + 1 } := by
        refine ⟨by rw [hend]; exact hseen, fun _ => ⟨?_, ?_⟩⟩
        · rw [hend, if_pos rfl, Nat.sub_self]
          rfl
        · rw [if_pos rfl]
          exact hcarry hw
      obtain ⟨stop, w', hwalk, hstop, hb⟩ := r.walkChunk_spec x cf.start (c.take n) (readEnd - chunk) buf _ hbuf
        (by omega) buf.length buf.length _ (Nat.le_refl _) (Nat.le_refl _) hbuild
      rw [if_pos ⟨hpos, hs, hf⟩]
      simp only [hread, hwalk]
      by_cases hdone : w'.stop = true ∨ r.full w' = true
      · rw [if_pos hdone]
        exact hover w' _ (r.not_active w' hdone) hb.seen
      · rw [if_neg hdone]
        obtain ⟨hline, hc'⟩ := hb.line (r.active_of_not w' hdone)
        rw [Nat.add_zero, List.drop_zero, Nat.sub_zero] at hline
        have hseg : (buf.take stop).length ≤ maxLineBytes := by
          rw [List.length_take]
          omega
        by_cases hfirst : readEnd - chunk = 0
        · rw [if_pos hfirst, (r.take_spec cf.start buf _ (buf.take stop) 0 stop w'
            (r.active_of_not w' hdone) hseg hc').1, ← hline, hb.seen, hfirst]
          rfl
        · rw [if_neg hfirst]
          obtain ⟨hkc, hka⟩ := keepTail_carries buf _ stop w' hstop hc'
          refine ih (readEnd - chunk) (keepTail buf stop w') (by omega) (by omega) (by omega) ?_ ?_
          · rw [hka]
            exact hb.seen
          · intro _
            rw [hline]
            exact hkc
    · rw [if_neg (fun h => hw ((r.active_iff w).mpr h.2))]
      exact hover w readEnd hw hseen

/-! ## All files -/

/-- One pass of the loop over the files. -/
theorem walkFiles_cons (dir : Directory) (chunk : ℕ) (hchunk : 1 ≤ chunk) (hsize : chunk ≤ maxLineBytes)
    (cf : ChainFile) (c : Bytes) (hc : dir cf.path = some c) (n : ℕ) (hpos : 0 < n) (hn : n ≤ c.length)
    (rest : List ChainFile) (w : Backward) :
    ∃ w', w'.acc = (splitLines cf.start (c.take n)).reverse.foldl r.visit w.acc ∧
      (r.walkFiles (fun _ => dir) chunk (cf :: rest) n w).acc =
        (r.walkFiles (fun _ => dir) chunk rest ((rest.head?.map ChainFile.size).getD 0) w').acc := by
  rw [walkFiles]
  by_cases hw : r.Active w.acc
  · rw [if_pos ((r.active_iff w).mp hw)]
    have hdrop : (c.take n).drop n = [] := List.drop_of_length_le (by rw [List.length_take]; omega)
    refine ⟨_, r.walkFile_spec dir chunk hchunk hsize cf c hc n hn w.acc n n
      { w with carry := [], carryTooLong := false } (Nat.le_refl n) hpos (Nat.le_refl n) ?_ ?_, rfl⟩
    · rw [seen, hdrop]
      rfl
    · intro _
      rw [hdrop]
      exact .inl ⟨rfl, rfl⟩
  · rw [if_neg (fun h => hw ((r.active_iff w).mpr h)), r.foldl_visit_inactive _ _ hw]
    refine ⟨w, rfl, ?_⟩
    cases rest with
    | nil => rfl
    | cons g rest => rw [walkFiles, if_neg (fun h => hw ((r.active_iff w).mpr h))]

/-- The files `pre` whole and the file `cf` up to `n`: the walk visits the lines of all of them. -/
theorem walkFiles_spec (dir : Directory) (chunk : ℕ) (hchunk : 1 ≤ chunk) (hsize : chunk ≤ maxLineBytes)
    (pre : List ChainFile) (bs : List Bytes) (hpre : Holds dir 0 pre bs) (cf : ChainFile) (c : Bytes)
    (hc : dir cf.path = some c) (n : ℕ) (hpos : 0 < n) (hn : n ≤ c.length) (w : Backward) :
    (r.walkFiles (fun _ => dir) chunk (cf :: pre.reverse) n w).acc =
      (linesOf 0 bs ++ splitLines cf.start (c.take n)).reverse.foldl r.visit w.acc := by
  induction hlen : pre.length generalizing pre bs cf c n w with
  | zero =>
    have hnil : pre = [] := List.length_eq_zero_iff.mp hlen
    subst hnil
    cases hpre
    obtain ⟨w', hacc, hrun⟩ := r.walkFiles_cons dir chunk hchunk hsize cf c hc n hpos hn [] w
    rw [linesOf, List.nil_append, ← hacc]
    exact hrun
  | succ k ih =>
    have hne : pre ≠ [] := List.ne_nil_of_length_eq_add_one hlen
    obtain ⟨front, g, rfl⟩ : ∃ front g, pre = front ++ [g] :=
      ⟨pre.dropLast, pre.getLast hne, (List.dropLast_append_getLast hne).symm⟩
    obtain ⟨ds, e, rfl, hfront, hstart, he, hes, hene⟩ := hpre.snoc
    obtain ⟨w', hacc, hrun⟩ := r.walkFiles_cons dir chunk hchunk hsize cf c hc n hpos hn
      (front ++ [g]).reverse w
    rw [hrun, List.reverse_append, List.reverse_singleton, List.singleton_append, List.head?_cons,
      Option.map_some, Option.getD_some, hes]
    have hk : front.length = k := by
      rw [List.length_append, List.length_singleton] at hlen
      omega
    have hrev : (linesOf 0 (ds ++ [e]) ++ splitLines cf.start (c.take n)).reverse =
        (splitLines cf.start (c.take n)).reverse ++ (linesOf 0 ds ++ splitLines g.start e).reverse := by
      rw [linesOf_snoc, ← hstart]
      exact List.reverse_append
    rw [ih front ds hfront g e he e.length (List.length_pos_iff.mpr hene) (Nat.le_refl _) w' hk, hacc,
      List.take_length, hrev, List.foldl_append]

end Request

end Minilog.Viewer
