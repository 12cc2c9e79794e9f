import Minilog.Viewer.Forward
import Minilog.Viewer.Walk

/-! The chunked backward reader is the plain one.

`naiveBackward` says what a backward page is without chunks: cut the chain, split it into lines, drop
what is not wanted, and take greedily from the newest end. `foldl_visit_collected` connects it to the
walk of `Walk.lean`, and the paging library to the forward reader. -/
namespace Minilog.Viewer
open Lib
set_option autoImplicit false

/-- The texts up to `n` bytes of their concatenation. -/
def cutAt : ℕ → List Bytes → List Bytes
  | _, [] => []
  | n, c :: cs => if n = 0 then [] else c.take n :: cutAt (n - c.length) cs

/-- The lines a backward page is taken from, oldest first. -/
def wantedBackward (keeps : Bytes → Bool) (since : ℤ) (lines : List (ℕ × Bytes)) : List (ℕ × Bytes) :=
  let short := lines.filter fun p => decide (p.2.length ≤ maxLineBytes)
  let stripped := short.map fun p => (p.1, trimRightCR p.2)
  let filled := stripped.filter fun p => !p.2.isEmpty
  let recent := filled.filter fun p => decide (since < 0 ∨ since ≤ (p.1 : ℤ))
  recent.filter fun p => keeps p.2

/-- The answer made of entries, oldest first. -/
def pageOf (logicalOffset : ℕ) (entries : List (ℕ × Bytes)) : Page :=
  match entries with
  | [] => ⟨[], [], logicalOffset, logicalOffset⟩
  | first :: _ => ⟨entries.map Prod.snd, entries.map Prod.fst, first.1, logicalOffset⟩

def naiveBackward (texts : List Bytes) (lower : Bytes → Bytes) (maxResponseBytes logicalOffset count : ℕ)
    (f : Filter) (since : ℤ) : Page :=
  let lines := wantedBackward (f.matches lower) since (linesOf 0 (cutAt logicalOffset texts))
  pageOf logicalOffset (greedy weight count maxResponseBytes lines.reverse).reverse

/-! ## Visiting is greedy -/

/-- One line of `wantedBackward`. -/
def selected (keeps : Bytes → Bool) (since : ℤ) (p : ℕ × Bytes) : Option (ℕ × Bytes) :=
  if p.2.length ≤ maxLineBytes ∧ (since < 0 ∨ since ≤ (p.1 : ℤ)) ∧ 0 < (trimRightCR p.2).length ∧
      keeps (trimRightCR p.2) = true then some (p.1, trimRightCR p.2)
  else none

theorem wantedBackward_eq (keeps : Bytes → Bool) (since : ℤ) (lines : List (ℕ × Bytes)) :
    wantedBackward keeps since lines = lines.filterMap (selected keeps since) := by
  unfold wantedBackward
  simp only [← List.filterMap_eq_filter, ← List.filterMap_eq_map, List.filterMap_filterMap]
  congr 1
  funext p
  unfold selected
  by_cases hlen : p.2.length ≤ maxLineBytes
  · by_cases hsince : since < 0 ∨ since ≤ (p.1 : ℤ)
    · cases hraw : trimRightCR p.2 with
      | nil => simp [Option.guard, hlen, hraw]
      | cons c raw => simp [Option.guard, hlen, hraw, hsince]
    · cases hraw : trimRightCR p.2 with
      | nil => simp [Option.guard, hlen, hraw]
      | cons c raw => simp [Option.guard, hlen, hraw, hsince]
  · simp [Option.guard, hlen]

/-- Visiting lines from the newest on collects the greedy page of those selected. -/
theorem foldl_visit_collected (r : Request) (l : List (ℕ × Bytes)) (hl : l.Pairwise fun p q => q.1 ≤ p.1)
    (x : Acc) (hx : x.stop = false) :
    (l.foldl r.visit x).collected = x.collected ++
    greedyFrom weight r.count r.maxResponseBytes x.collected.length
      x.collectedBytes (l.filterMap (selected r.keeps r.since)) := by
  induction l generalizing x with
  | nil => exact (List.append_nil _).symm
  | cons p l ih =>
    obtain ⟨hp, hl⟩ := List.pairwise_cons.mp hl
    by_cases hcount : x.collected.length < r.count
    · rw [List.foldl_cons, r.visit_active x p ⟨hx, hcount⟩]
      by_cases hsince : 0 ≤ r.since ∧ (p.1 : ℤ) < r.since
      · -- nothing older can start at or after `since` either
        have hnone : (p :: l).filterMap (selected r.keeps r.since) = [] := by
          apply List.filterMap_eq_nil_iff.mpr
          intro q hq
          have hqp : q.1 ≤ p.1 := by
            rcases List.mem_cons.mp hq with rfl | hq
            · exact Nat.le_refl _
            · exact hp q hq
          unfold selected
          rw [if_neg (fun h => by omega)]
        rw [if_pos hsince, hnone, r.foldl_visit_inactive _ _ (fun h => Bool.noConfusion h.1)]
        exact (List.append_nil _).symm
      · rw [if_neg hsince]
        have hrecent : r.since < 0 ∨ r.since ≤ (p.1 : ℤ) := by omega
        by_cases hsel : p.2.length ≤ maxLineBytes ∧ 0 < (trimRightCR p.2).length ∧
          r.keeps (trimRightCR p.2) = true
        · obtain ⟨hlen, hkeep⟩ := hsel
          have hselected : selected r.keeps r.since p = some (p.1, trimRightCR p.2) :=
            if_pos ⟨hlen, hrecent, hkeep⟩
          rw [if_neg (by omega), List.filterMap_cons_some hselected, Request.add, if_pos hkeep, greedyFrom,
            weight_mk]
          by_cases hbudget : 0 < x.collected.length ∧
              r.maxResponseBytes < x.collectedBytes + (trimRightCR p.2).length
          · rw [if_pos hbudget, r.foldl_visit_inactive _ _ (fun h => Bool.noConfusion h.1), if_neg]
            · exact (List.append_nil _).symm
            · omega
          · have hrest := ih hl ⟨x.collected ++ [(p.1, trimRightCR p.2)],
              x.collectedBytes + (trimRightCR p.2).length, x.stop⟩ hx
            rw [List.append_assoc, List.singleton_append, List.length_append] at hrest
            rw [if_neg hbudget, if_pos ⟨hcount, by omega⟩]
            exact hrest
        · have hnone : selected r.keeps r.since p = none := if_neg fun h => hsel ⟨h.1, h.2.2⟩
          have hsame : (if maxLineBytes < p.2.length then x else r.add x p.1 (trimRightCR p.2)) = x := by
            by_cases hlong : maxLineBytes < p.2.length
            · rw [if_pos hlong]
            · rw [if_neg hlong, Request.add, if_neg (fun hkeep => hsel ⟨by omega, hkeep⟩)]
          rw [hsame, List.filterMap_cons_none hnone]
          exact ih hl x hx
    · rw [r.foldl_visit_inactive _ x (fun h => hcount h.2), greedyFrom_full _ _ _ _ _ _ hcount, List.append_nil]

/-! ## The cut -/

theorem cutAt_zero (cs : List Bytes) : cutAt 0 cs = [] := by
  cases cs with
  | nil => rfl
  | cons c cs => rw [cutAt, if_pos rfl]

theorem cutAt_append (bs cs : List Bytes) (n : ℕ) (hn : 0 < n) :
    cutAt (bs.flatten.length + n) (bs ++ cs) = bs ++ cutAt n cs := by
  induction bs with
  | nil => rw [List.flatten_nil, List.length_nil, Nat.zero_add, List.nil_append, List.nil_append]
  | cons b bs ih =>
    rw [List.cons_append, cutAt, List.flatten_cons, List.length_append, if_neg (by omega),
      List.take_of_length_le (by omega), show b.length + bs.flatten.length + n - b.length =
        bs.flatten.length + n by omega, ih, List.cons_append]

theorem cutAt_inside (bs : List Bytes) (c : Bytes) (ds : List Bytes) (n : ℕ) (hn : 0 < n) (hc : n ≤ c.length) :
    cutAt (bs.flatten.length + n) (bs ++ c :: ds) = bs ++ [c.take n] := by
  rw [cutAt_append bs _ n hn, cutAt, if_neg (by omega), Nat.sub_eq_zero_of_le hc, cutAt_zero]

/-- A cut at or behind the end of the newest text leaves everything. -/
theorem cutAt_all (bs : List Bytes) (c : Bytes) (hc : c ≠ []) (o : ℕ) (ho : (bs ++ [c]).flatten.length ≤ o) :
    cutAt o (bs ++ [c]) = bs ++ [c.take c.length] := by
  have hpos := List.length_pos_iff.mpr hc
  have hlen : (bs ++ [c]).flatten.length = bs.flatten.length + c.length := by
    rw [List.flatten_append, List.length_append, List.flatten_singleton]
  obtain ⟨n, rfl⟩ : ∃ n, o = bs.flatten.length + n := ⟨o - bs.flatten.length, by omega⟩
  rw [cutAt_append bs _ n (by omega), cutAt, if_neg (by omega), List.take_of_length_le (by omega),
    List.take_length]
  rfl

theorem backwardPlace_of_fileAt (fc : FileChain) (o i n : ℕ) (h : fc.fileAt o = (i, n)) (hn : 0 < n) :
    fc.backwardPlace o = (i, n) := by
  unfold FileChain.backwardPlace
  rw [h]
  split
  · next heq =>
    have := (Prod.mk.inj heq).2
    omega
  · rfl

/-- A backward read starts in the file whose text the cut at `o` ends, at the cut. -/
theorem backwardPlace_spec (dir : Directory) (fc : FileChain) (texts : List Bytes)
    (hfc : Holds dir 0 fc.files texts) (htotal : fc.total = texts.flatten.length) (hfiles : fc.files ≠ [])
    (o : ℕ) (ho : 0 < o) :
    ∃ pre f later bs c n, fc.files = pre ++ f :: later ∧ Holds dir 0 pre bs ∧ f.start = bs.flatten.length ∧
      dir f.path = some c ∧ 0 < n ∧ n ≤ c.length ∧ cutAt o texts = bs ++ [c.take n] ∧
      fc.backwardPlace o = (pre.length, n) := by
  by_cases hend : fc.total ≤ o
  · obtain ⟨pre, f, hpf⟩ : ∃ pre f, fc.files = pre ++ [f] :=
      ⟨fc.files.dropLast, fc.files.getLast hfiles, (List.dropLast_append_getLast hfiles).symm⟩
    rw [hpf] at hfc
    obtain ⟨bs, c, rfl, hpre, hstart, hc, hsize, hne⟩ := hfc.snoc
    rw [Nat.zero_add] at hstart
    have hpos := List.length_pos_iff.mpr hne
    refine ⟨pre, f, [], bs, c, c.length, hpf, hpre, hstart, hc, hpos, Nat.le_refl _,
      cutAt_all bs c hne o (htotal ▸ hend), ?_⟩
    rw [← hsize]
    exact backwardPlace_of_fileAt fc o _ _ (fileAt_end fc pre f hpf o hend) (by omega)
  · obtain ⟨pre, f, later, bs, c, ds, n, hfs, htexts, hpre, hstart, hc, hsize, hon, hn⟩ :=
      hfc.place dir 0 _ texts o (by omega)
    rw [Nat.zero_add] at hstart
    have hlast := hfc.end_le dir 0 _ texts f (by rw [hfs]; simp)
    have hat := fileAt_inside dir fc pre f later bs hfs hpre hstart n (by omega) (by omega)
    rw [hstart, ← hon] at hat
    by_cases hzero : n = 0
    · -- the start of a file is the end of the one in front of it
      have hbs : bs ≠ [] := by
        intro e
        rw [e, hzero] at hon
        exact absurd hon (Nat.ne_of_gt ho)
      have hpne : pre ≠ [] := by
        intro e
        have hlen := hpre.length_eq
        rw [e] at hlen
        exact hbs (List.length_eq_zero_iff.mp hlen.symm)
      obtain ⟨front, g, rfl⟩ : ∃ front g, pre = front ++ [g] :=
        ⟨pre.dropLast, pre.getLast hpne, (List.dropLast_append_getLast hpne).symm⟩
      obtain ⟨as, e, rfl, hfront, hg, he, hgs, hene⟩ := hpre.snoc
      rw [Nat.zero_add] at hg
      have hoe : o = as.flatten.length + e.length := by
        rw [hon, hzero, List.flatten_append, List.length_append, List.flatten_singleton, Nat.add_zero]
      refine ⟨front, g, f :: later, as, e, e.length, by rw [hfs, List.append_assoc]; rfl, hfront, hg, he,
        List.length_pos_iff.mpr hene, Nat.le_refl _, ?_, ?_⟩
      · rw [hoe, htexts, List.append_assoc]
        exact cutAt_inside as e (c :: ds) e.length (List.length_pos_iff.mpr hene) (Nat.le_refl _)
      · rw [hzero, List.length_append, List.length_singleton] at hat
        have hget : fc.files[front.length]? = some g := by
          rw [hfs, List.append_assoc, List.getElem?_append_right (Nat.le_refl _), Nat.sub_self]
          rfl
        unfold FileChain.backwardPlace
        rw [hat]
        simp only [hget, Option.map_some, Option.getD_some, hgs]
    · refine ⟨pre, f, later, bs, c, n, hfs, hpre, hstart, hc, by omega, by omega, ?_,
        backwardPlace_of_fileAt fc o _ _ hat (by omega)⟩
      rw [hon, htexts]
      exact cutAt_inside bs c ds n (by omega) (by omega)

theorem cutAt_flatten (n : ℕ) (cs : List Bytes) : (cutAt n cs).flatten = cs.flatten.take n := by
  induction cs generalizing n with
  | nil => simp [cutAt]
  | cons c cs ih =>
    rw [cutAt]
    split
    · next h => rw [h, List.take_zero, List.flatten_nil]
    · rw [List.flatten_cons, List.flatten_cons, ih, List.take_append]

/-- No line of the cut chain starts at or behind `since` when `since` is at or behind the cut. -/
theorem selected_cut_nil (keeps : Bytes → Bool) (since : ℤ) (texts : List Bytes) (o : ℕ)
    (hs : (o : ℤ) ≤ since) :
    (linesOf 0 (cutAt o texts)).filterMap (selected keeps since) = [] := by
  apply List.filterMap_eq_nil_iff.mpr
  intro p hp
  have hb := linesOf_bounds 0 _ p hp
  rw [cutAt_flatten, List.length_take] at hb
  refine if_neg fun h => ?_
  have hnil : p.2 = [] := List.length_eq_zero_iff.mp (by omega)
  rw [hnil] at h
  exact absurd h.2.2.1 (Nat.lt_irrefl 0)

/-! ## One page -/

section Page

variable (dir : Directory) (fc : FileChain) (texts : List Bytes)
variable (hfc : Holds dir 0 fc.files texts) (htotal : fc.total = texts.flatten.length)

include hfc htotal in
/-- Wherever its chunks are cut, the backward reader returns the naive page. -/
theorem readBackwardBy_eq (chunk : ℕ) (hchunk : 1 ≤ chunk) (hsize : chunk ≤ maxLineBytes)
    (lower : Bytes → Bytes) (maxResponseBytes logicalOffset count : ℕ) (f : Filter) (since : ℤ) :
    fc.readBackwardBy chunk (fun _ => dir) lower maxResponseBytes logicalOffset count f since =
      naiveBackward texts lower maxResponseBytes logicalOffset count f since := by
  have hnone : (fc.empty = true ∨ count = 0 ∨ logicalOffset = 0) ∨ 0 ≤ since ∧ (logicalOffset : ℤ) ≤ since →
      naiveBackward texts lower maxResponseBytes logicalOffset count f since = ⟨[], [], logicalOffset,
        logicalOffset⟩ := by
    intro h
    unfold naiveBackward
    simp only [wantedBackward_eq]
    rcases h with (h | h | h) | h
    · rw [List.isEmpty_iff.mp h] at hfc
      cases hfc
      rfl
    · rw [h, greedy, greedyFrom_full weight 0 _ _ _ _ (Nat.not_lt_zero 0)]
      rfl
    · rw [h, cutAt_zero]
      rfl
    · rw [selected_cut_nil _ _ _ _ h.2]
      rfl
  unfold FileChain.readBackwardBy
  by_cases hearly : fc.empty = true ∨ count = 0 ∨ logicalOffset = 0
  · rw [if_pos hearly, hnone (.inl hearly)]
  rw [if_neg hearly]
  by_cases hsince : 0 ≤ since ∧ (logicalOffset : ℤ) ≤ since
  · rw [if_pos hsince, hnone (.inr hsince)]
  rw [if_neg hsince]
  have hfiles : fc.files ≠ [] := fun e => hearly (.inl (by rw [FileChain.empty, e]; rfl))
  obtain ⟨pre, cf, later, bs, c, n, hpf, hpre, hstart, hc, hpos, hn, hcut, hplace⟩ :=
    backwardPlace_spec dir fc texts hfc htotal hfiles logicalOffset (by omega)
  have hrev : (fc.files.take (pre.length + 1)).reverse = cf :: pre.reverse := by
    rw [hpf, List.take_append, List.take_of_length_le (by omega), Nat.add_sub_cancel_left, List.take_succ_cons,
      List.take_zero, List.reverse_append]
    rfl
  have hwalk := (⟨f.matches lower, count, maxResponseBytes, since⟩ : Request).walkFiles_spec dir chunk
    hchunk hsize pre bs hpre cf c hc n hpos hn ⟨[], 0, false, [], false, 0⟩
  rw [hstart, ← Nat.zero_add bs.flatten.length, ← linesOf_snoc, ← hcut] at hwalk
  have holder : (linesOf 0 (cutAt logicalOffset texts)).reverse.Pairwise fun p q => q.1 ≤ p.1 := by
    apply List.pairwise_reverse.mpr
    exact (linesOf_pairwise 0 _).imp fun h => Nat.le_of_add_right_le h
  have hcollected := foldl_visit_collected ⟨f.matches lower, count, maxResponseBytes, since⟩ _ holder ⟨[],
    0, false⟩ rfl
  rw [List.nil_append, List.filterMap_reverse] at hcollected
  have hpage : (Request.walkFiles ⟨f.matches lower, count, maxResponseBytes, since⟩ (fun _ => dir) chunk
      (cf :: pre.reverse) n ⟨[], 0, false, [], false, 0⟩).collected = greedy weight count maxResponseBytes
        ((linesOf 0 (cutAt logicalOffset texts)).filterMap (selected (f.matches lower) since)).reverse :=
    (congrArg Acc.collected hwalk).trans hcollected
  unfold naiveBackward
  simp only [wantedBackward_eq, hplace, hrev]
  rw [hpage, List.take_of_length_le (greedy_length weight count maxResponseBytes _)]
  rfl

end Page

/-! ## All pages, backwards -/

/-- `n` bytes into the texts is a line start or the end of a text. -/
def LineStart : ℕ → List Bytes → Prop
  | _, [] => True
  | n, c :: cs => if n < c.length then n = 0 ∨ (c.take n).getLast? = some lf else LineStart (n - c.length) cs

theorem lineStart_zero (cs : List Bytes) : LineStart 0 cs := by
  induction cs with
  | nil => trivial
  | cons c cs ih =>
    rw [LineStart]
    split
    · exact .inl rfl
    · rw [Nat.zero_sub]
      exact ih

theorem lineStart_end (cs : List Bytes) : LineStart cs.flatten.length cs := by
  induction cs with
  | nil => trivial
  | cons c cs ih =>
    rw [LineStart, List.flatten_cons, List.length_append, if_neg (by omega), Nat.add_sub_cancel_left]
    exact ih

theorem lineStart_of_mem (s : ℕ) (cs : List Bytes) (p : ℕ × Bytes) (hp : p ∈ linesOf s cs) :
    LineStart (p.1 - s) cs := by
  induction cs generalizing s with
  | nil => trivial
  | cons c cs ih =>
    rw [LineStart]
    rcases List.mem_append.mp hp with hp | hp
    · obtain ⟨before, after, hc, hs, -, hb, -⟩ := splitLines_position s c p hp
      have hn : p.1 - s = before.length := by omega
      rw [hn]
      split
      · rw [hc, List.append_assoc, List.take_left]
        rcases hb with hb | hb
        · exact .inl (by rw [hb]; rfl)
        · exact .inr hb
      · next hge =>
        have hle : before.length ≤ c.length := by
          rw [hc, List.length_append, List.length_append]
          omega
        rw [Nat.sub_eq_zero_of_le hle]
        exact lineStart_zero cs
    · have hb := linesOf_bounds (s + c.length) cs p hp
      rw [if_neg (by omega), Nat.sub_sub]
      exact ih (s + c.length) hp

/-- The lines that are not empty. -/
def filled (lines : List (ℕ × Bytes)) : List (ℕ × Bytes) := kept (fun _ => true) lines

theorem filled_append (l m : List (ℕ × Bytes)) : filled (l ++ m) = filled l ++ filled m := kept_append _ l m

theorem mem_filled (p : ℕ × Bytes) (l : List (ℕ × Bytes)) : p ∈ filled l ↔ p ∈ l ∧ 0 < p.2.length := by
  unfold filled kept
  rw [List.mem_filter, List.length_pos_iff]
  simp

theorem kept_below (keeps : Bytes → Bool) (l : List (ℕ × Bytes)) (n : ℕ) (h : ∀ p ∈ l, p.1 + p.2.length ≤ n) :
    (kept keeps l).filter (fun p => decide (p.1 < n)) = kept keeps l := by
  apply List.filter_eq_self.mpr
  intro p hp
  obtain ⟨hmem, hkeep⟩ := List.mem_filter.mp hp
  rw [Bool.and_eq_true, Bool.not_eq_true', List.isEmpty_eq_false_iff] at hkeep
  have hpos := List.length_pos_iff.mpr hkeep.1
  have := h p hmem
  exact decide_eq_true (by omega)

theorem filled_below (l : List (ℕ × Bytes)) (n : ℕ) (h : ∀ p ∈ l, p.1 + p.2.length ≤ n) :
    (filled l).filter (fun p => decide (p.1 < n)) = filled l := kept_below _ l n h

theorem filled_above (l : List (ℕ × Bytes)) (n : ℕ) (h : ∀ p ∈ l, n ≤ p.1) :
    (filled l).filter (fun p => decide (p.1 < n)) = [] := by
  apply List.filter_eq_nil_iff.mpr
  intro p hp
  have := h p ((mem_filled p l).mp hp).1
  simp
  omega

/-- A cut at a line start leaves the lines in front of it. -/
theorem filled_cutAt (s n : ℕ) (cs : List Bytes) (h : LineStart n cs) :
    filled (linesOf s (cutAt n cs)) = (filled (linesOf s cs)).filter fun p => decide (p.1 < s + n) := by
  induction cs generalizing s n with
  | nil => rfl
  | cons c cs ih =>
    rw [LineStart] at h
    by_cases hn : n = 0
    · subst hn
      rw [cutAt_zero, filled_above _ (s + 0) (fun p hp => (linesOf_bounds s _ p hp).1)]
      rfl
    rw [cutAt, if_neg hn, linesOf, linesOf, filled_append, filled_append, List.filter_append]
    by_cases hc : n < c.length
    · rw [if_pos hc] at h
      obtain ⟨a, ha⟩ : ∃ a, c.take n = a ++ [lf] :=
        ⟨(c.take n).dropLast, (List.dropLast_append_getLast? lf (by simp [h.resolve_left hn])).symm⟩
      have hlen : n = a.length + 1 := by
        have := congrArg List.length ha
        rw [List.length_take, List.length_append, List.length_singleton] at this
        omega
      have hsplit : splitLines s c = splitLines s a ++ splitLines (s + n) (c.drop n) := by
        have hcut := List.take_append_drop n c
        rw [ha, List.append_assoc, List.singleton_append] at hcut
        rw [← hcut, splitLines_append_lf, hcut, ← hlen]
      have hfront : splitLines s (a ++ [lf]) = splitLines s a ++ [(s + n, [])] := by
        rw [splitLines_append_lf, ← hlen]
        rfl
      rw [ha, hfront, hsplit, Nat.sub_eq_zero_of_le (Nat.le_of_lt hc), cutAt_zero, filled_append, filled_append,
        List.filter_append, filled_below (splitLines s a), filled_above (splitLines (s + n) (c.drop n)),
        filled_above (linesOf (s + c.length) cs)]
      · rfl
      · intro p hp
        have := linesOf_bounds _ _ p hp
        omega
      · exact fun p hp => (splitLines_bounds _ _ p hp).1
      · intro p hp
        have := splitLines_bounds s a p hp
        omega
    · rw [if_neg hc] at h
      have hend := filled_below (splitLines s c) (s + n) fun p hp => by
        have := splitLines_bounds s c p hp
        omega
      rw [List.take_of_length_le (by omega), ih (s + c.length) (n - c.length) h, hend,
        show s + c.length + (n - c.length) = s + n by omega]

theorem kept_eq_filled (keeps : Bytes → Bool) (l : List (ℕ × Bytes)) :
    kept keeps l = (filled l).filter fun p => keeps p.2 := by
  unfold filled kept
  rw [List.filter_filter]
  congr 1
  funext p
  rw [Bool.and_true, Bool.and_comm]

theorem trimRightCR_plain (l : Bytes) (h : Plain l) : trimRightCR l = l := by
  apply List.rdropWhile_eq_self_iff.mpr
  intro hl hcr
  have hlast := List.getLast?_eq_some_getLast hl
  rw [beq_iff_eq.mp hcr] at hlast
  exact h.2 hlast

/-- What a backward page of plain lines is taken from. -/
theorem wantedBackward_plain (keeps : Bytes → Bool) (since : ℤ) (l : List (ℕ × Bytes))
    (hl : ∀ p ∈ filled l, Plain p.2) :
    wantedBackward keeps since l = (kept keeps l).filter fun p => decide (since < 0 ∨ since ≤ (p.1 : ℤ)) := by
  rw [wantedBackward_eq]
  unfold kept
  rw [List.filter_filter, ← List.filterMap_eq_filter]
  apply List.filterMap_congr
  intro p hp
  unfold selected Option.guard
  by_cases hne : p.2 = []
  · have hblank : trimRightCR p.2 = [] := by rw [hne]; rfl
    rw [if_neg (by rw [hblank]; exact fun hc => absurd hc.2.2.1 (Nat.lt_irrefl 0))]
    simp [hne]
  · have hplain := hl p ((mem_filled p l).mpr ⟨hp, List.length_pos_iff.mpr hne⟩)
    have hpos := List.length_pos_iff.mpr hne
    have hlen := hplain.1
    rw [trimRightCR_plain p.2 hplain]
    by_cases hsince : since < 0 ∨ since ≤ (p.1 : ℤ)
    · cases hk : keeps p.2 with
      | false => simp [hk]
      | true => simp [hk, hsince, hne, hpos, Nat.le_of_lt hlen]
    · simp [hsince]

section Pages

variable (lower : Bytes → Bytes) (dir : Directory) (sink : Sink) (filter : Filter) (count maxResponseBytes : ℕ)

/-- What a backward cursor stands behind: the lines in front of it, newest first. -/
def Behind (o : ℕ) (l : List (ℕ × Bytes)) : Prop :=
  LineStart o (chainTexts dir sink) ∧
    l = ((kept (filter.matches lower) (chainLines dir sink)).filter fun p => decide (p.1 < o)).reverse

theorem pageOf_entries (o : ℕ) (entries : List (ℕ × Bytes)) : (pageOf o entries).entries = entries := by
  cases entries with
  | nil => rfl
  | cons first rest => exact zip_fst_snd (first :: rest)

/-- At a line start, the naive page is the greedy page of the lines in front of it. -/
theorem naiveBackward_entries (since : ℤ) (hs : since < 0)
    (hlines : ∀ p ∈ chainLines dir sink, p.2.length < maxLineBytes ∧ p.2.getLast? ≠ some cr)
    (o : ℕ) (l : List (ℕ × Bytes)) (h : Behind lower dir sink filter o l) :
    naiveBackward (chainTexts dir sink) lower maxResponseBytes o count filter since =
      pageOf o (greedy weight count maxResponseBytes l).reverse := by
  obtain ⟨hstart, rfl⟩ := h
  have hcut := filled_cutAt 0 o (chainTexts dir sink) hstart
  rw [Nat.zero_add] at hcut
  have hplain : ∀ p ∈ filled (linesOf 0 (cutAt o (chainTexts dir sink))), Plain p.2 := by
    intro p hp
    rw [hcut] at hp
    exact hlines p ((mem_filled p _).mp (List.mem_filter.mp hp).1).1
  have hsince : ∀ p : ℕ × Bytes, decide (since < 0 ∨ since ≤ (p.1 : ℤ)) = true :=
    fun p => decide_eq_true (Or.inl hs)
  unfold naiveBackward
  simp only [wantedBackward_plain _ since _ hplain, hsince, List.filter_true]
  rw [kept_eq_filled, hcut, kept_eq_filled, List.filter_filter, List.filter_filter]
  simp only [Bool.and_comm]
  rfl

/-- The lines in front of the last line of a page are those the page left. -/
theorem behind_page (K page rest : List (ℕ × Bytes)) (o : ℕ) (first : ℕ × Bytes)
    (hK : K.Pairwise fun p q => p.1 < q.1)
    (h : (K.filter fun p => decide (p.1 < o)).reverse = page ++ first :: rest) :
    rest = (K.filter fun p => decide (p.1 < first.1)).reverse := by
  have hsplit : (K.filter fun p => decide (p.1 < o)) = rest.reverse ++ first :: page.reverse := by
    rw [← List.reverse_reverse (K.filter _), h, List.reverse_append, List.reverse_cons, List.append_assoc]
    rfl
  have hsorted := hK.filter (fun p => decide (p.1 < o))
  rw [hsplit] at hsorted
  obtain ⟨-, hpage, hbefore⟩ := List.pairwise_append.mp hsorted
  have hfirst : first.1 < o := by
    have hmem : first ∈ K.filter fun p => decide (p.1 < o) := by
      rw [hsplit]
      simp
    exact of_decide_eq_true (List.mem_filter.mp hmem).2
  have hsame : (K.filter fun p => decide (p.1 < first.1)) =
      (K.filter fun p => decide (p.1 < o)).filter fun p => decide (p.1 < first.1) := by
    rw [List.filter_filter]
    congr 1
    funext p
    by_cases hp : p.1 < first.1
    · simp [hp, Nat.lt_trans hp hfirst]
    · simp [hp]
  have hfront : (rest.reverse.filter fun p => decide (p.1 < first.1)) = rest.reverse :=
    List.filter_eq_self.mpr fun p hp => decide_eq_true (hbefore p hp first List.mem_cons_self)
  have hback : ((first :: page.reverse).filter fun p => decide (p.1 < first.1)) = [] := by
    apply List.filter_eq_nil_iff.mpr
    intro p hp
    rcases List.mem_cons.mp hp with rfl | hp
    · simp
    · have := (List.pairwise_cons.mp hpage).1 p hp
      simp
      omega
  rw [hsame, hsplit, List.filter_append, hfront, hback, List.append_nil, List.reverse_reverse]

/-- The cursor of a page stands behind the lines the page left. -/
theorem behind_next (o : ℕ) (l : List (ℕ × Bytes)) (h : Behind lower dir sink filter o l)
    (hl : greedy weight count maxResponseBytes l ≠ []) :
    Behind lower dir sink filter (pageOf o (greedy weight count maxResponseBytes l).reverse).firstOffset
      (l.drop (greedy weight count maxResponseBytes l).length) := by
  obtain ⟨hstart, hl'⟩ := h
  obtain ⟨page, first, hpage⟩ : ∃ (page : List (ℕ × Bytes)) (first : ℕ × Bytes),
      greedy weight count maxResponseBytes l = page ++ [first] :=
    ⟨_, (greedy weight count maxResponseBytes l).getLast hl, (List.dropLast_append_getLast hl).symm⟩
  have hsplit := greedy_append_drop weight count maxResponseBytes l
  rw [hpage, List.append_assoc, List.singleton_append, hl'] at hsplit
  have hmem : first ∈ chainLines dir sink := by
    have hf : first ∈ ((kept (filter.matches lower) (chainLines dir sink)).filter fun p =>
        decide (p.1 < o)).reverse := by
      rw [← hsplit]
      simp
    exact (List.mem_filter.mp (List.mem_filter.mp (List.mem_reverse.mp hf)).1).1
  rw [hpage, List.reverse_append, List.reverse_singleton, List.singleton_append]
  refine ⟨?_, ?_⟩
  · exact lineStart_of_mem 0 _ first hmem
  · rw [hl']
    exact behind_page _ page _ o first (kept_pairwise _ 0 _) hsplit.symm

/-- Backward paging from the tail visits the lines wanted, newest first. -/
theorem backward_pages (since : ℤ) (hs : since < 0) (hcount : 1 ≤ count)
    (hlines : ∀ p ∈ chainLines dir sink, p.2.length < maxLineBytes ∧ p.2.getLast? ≠ some cr) :
    ∃ pages, Paging (fun o => naiveBackward (chainTexts dir sink) lower maxResponseBytes o count filter since)
        (fun page => page.entries.reverse) Page.firstOffset (chainTexts dir sink).flatten.length pages ∧
      pages.flatMap (fun p => p.2.entries.reverse) =
        (kept (filter.matches lower) (chainLines dir sink)).reverse := by
  have hpage := naiveBackward_entries lower dir sink filter count maxResponseBytes since hs hlines
  have hall : Behind lower dir sink filter (chainTexts dir sink).flatten.length
      (kept (filter.matches lower) (chainLines dir sink)).reverse := by
    refine ⟨lineStart_end _, ?_⟩
    rw [kept_below]
    intro p hp
    have := linesOf_bounds 0 (chainTexts dir sink) p hp
    omega
  obtain ⟨pages, hpaging, hflat, -⟩ := paging_complete
    (fun o => naiveBackward (chainTexts dir sink) lower maxResponseBytes o count filter since)
    (fun page => page.entries.reverse) Page.firstOffset weight count maxResponseBytes hcount
    (Behind lower dir sink filter)
    (fun o l h => by rw [hpage o l h, pageOf_entries, List.reverse_reverse])
    (fun o l h hl => by
      rw [hpage o l h]
      exact behind_next lower dir sink filter count maxResponseBytes o l h
        fun e => hl ((greedy_eq_nil weight count maxResponseBytes hcount l).mp e))
    _ _ hall
  exact ⟨pages, hpaging, hflat⟩

theorem readBackwardBy_chain (chunk : ℕ) (hchunk : 1 ≤ chunk) (hsize : chunk ≤ maxLineBytes) (logicalOffset : ℕ)
    (since : ℤ) :
    (newFileChain (fun _ => dir) sink).readBackwardBy chunk
    (fun _ => dir) lower maxResponseBytes logicalOffset count
        filter since =
      naiveBackward (chainTexts dir sink) lower maxResponseBytes logicalOffset count filter since :=
  readBackwardBy_eq dir _ _ (newFileChain_holds dir sink) (newFileChain_total dir sink) chunk hchunk hsize lower
    maxResponseBytes logicalOffset count filter since

/-- The backward reader on a chain that does not change: it returns the naive page for every offset and
every `since`, wherever its chunks are cut, and on chains of plain lines its pages from the tail on
hold the lines of forward paging, reversed. -/
theorem readBackward_refines_naive (hcount : 1 ≤ count) :
    let fc : FileChain := newFileChain (fun _ => dir) sink
    (∀ logicalOffset since,
      fc.readBackward (fun _ => dir) lower maxResponseBytes logicalOffset count filter since =
        naiveBackward (chainTexts dir sink) lower maxResponseBytes logicalOffset count filter since) ∧
    (∀ chunk, 1 ≤ chunk → chunk ≤ maxLineBytes → ∀ logicalOffset since,
      fc.readBackwardBy chunk (fun _ => dir) lower maxResponseBytes logicalOffset count filter since =
        fc.readBackward (fun _ => dir) lower maxResponseBytes logicalOffset count filter since) ∧
    ((∀ p ∈ chainLines dir sink, p.2.length < maxLineBytes ∧ p.2.getLast? ≠ some cr) →
      ∀ forwardCount, 1 ≤ forwardCount → ∀ since : ℤ, since < 0 → ∃ forwards backwards,
        Paging (fun o => fc.readForward (fun _ => dir) lower maxResponseBytes o forwardCount filter)
          Page.entries Page.nextOffset 0 forwards ∧
        Paging (fun o => fc.readBackward (fun _ => dir) lower maxResponseBytes o count filter since)
          (fun page => page.entries.reverse) Page.firstOffset fc.tailOffset backwards ∧
        backwards.flatMap (fun p => p.2.entries.reverse) =
          (forwards.flatMap fun p => p.2.entries).reverse) := by
  intro fc
  have hnaive : ∀ logicalOffset since,
      fc.readBackward (fun _ => dir) lower maxResponseBytes logicalOffset count filter since =
        naiveBackward (chainTexts dir sink) lower maxResponseBytes logicalOffset count filter since :=
    readBackwardBy_chain lower dir sink filter count maxResponseBytes backwardChunkSize (by decide) (by decide)
  refine ⟨hnaive, ?_, ?_⟩
  · intro chunk hchunk hsize logicalOffset since
    rw [hnaive]
    exact readBackwardBy_chain lower dir sink filter count maxResponseBytes chunk hchunk hsize logicalOffset
      since
  · intro hlines forwardCount hforward since hs
    obtain ⟨forwards, hf, hflat, -⟩ :=
      forward_pages lower dir sink filter forwardCount maxResponseBytes hforward hlines
    obtain ⟨backwards, hb, hback⟩ :=
      backward_pages lower dir sink filter count maxResponseBytes since hs hcount hlines
    refine ⟨forwards, backwards, hf, ?_, by rw [hback, hflat]⟩
    have hread : (fun o => fc.readBackward (fun _ => dir) lower maxResponseBytes o count filter since) =
        fun o => naiveBackward (chainTexts dir sink) lower maxResponseBytes o count filter since := by
      funext o
      exact hnaive o since
    rw [hread, FileChain.tailOffset, newFileChain_total]
    exact hb

theorem readBackward_cutShort :
    (newFileChain (fun _ => cutShort) ⟨ascii "s", ascii "/l/s.jsonl", 1⟩).readBackward
    (fun _ => cutShort) id 3 11 2
        ⟨[], [], [], []⟩ (-1) = ⟨[ascii "\x7bc\x7d"], [7], 7, 11⟩ :=
  ((readBackward_refines_naive id cutShort ⟨ascii "s", ascii "/l/s.jsonl", 1⟩ ⟨[], [], [], []⟩ 2 3
    (by decide)).1 11 (-1)).trans (by decide +kernel)

end Pages

end Minilog.Viewer
