import Minilog.Lib.Paging
import Minilog.Viewer.Chain

/-! Forward paging is complete.

`scanFile_spec` is the step lemma: from a line start the scan loop takes the greedy page of the
filtered lines in front of it, and leaves the cursor at a line start or at the file's end with exactly
the lines behind the page still in front. `readFiles_spec` carries it over the files, and the paging
library turns it into a statement about the client's whole loop. -/
namespace Minilog.Viewer
open Lib
set_option autoImplicit false

/-- A line the scanner hands on as it stands. -/
def Plain (l : Bytes) : Prop := l.length < maxLineBytes ∧ l.getLast? ≠ some cr

theorem kept_splitLines_nil (keeps : Bytes → Bool) (o : ℕ) : kept keeps (splitLines o []) = [] := rfl

/-- The first line of a text: the token the scanner yields for it, and the piece of the text it stands for. -/
theorem first_piece (t : Bytes) (ht : t ≠ []) :
    ∃ raw p s, t = p ++ s ∧ p ≠ [] ∧ (p.getLast? = some lf ∨ s = []) ∧
      (∀ o, min (o + (raw.length + 1)) (o + t.length) = o + p.length) ∧ scanLines t = raw :: scanLines s ∧
      ∀ keeps o, kept keeps (splitLines o t) = kept keeps [(o, raw)] ++
      kept keeps (splitLines (o + p.length) s) := by
  rcases lines_cases t with h | ⟨-, h⟩ | ⟨l, s, hl, h⟩
  · exact absurd h ht
  · refine ⟨t, t, [], by simp, ht, .inr rfl, ?_, scanLines_unterminated t ht h, ?_⟩
    · intro o
      omega
    · intro keeps o
      rw [splitLines_unterminated o t h, kept_splitLines_nil, List.append_nil]
  · refine ⟨l, l ++ [lf], s, by simp [h], by simp, .inl (by simp), ?_, ?_, ?_⟩
    · intro o
      rw [h, List.length_append, List.length_append, List.length_cons, List.length_singleton]
      omega
    · rw [h, scanLines_terminated l s hl]
    · intro keeps o
      rw [h, splitLines_terminated o l s hl, ← List.singleton_append, kept_append, List.length_append]
      rfl

theorem line_end_append (p b s s' : Bytes) (hp : p.getLast? = some lf ∨ s = []) (hs : s = b ++ s')
    (hb : b = [] ∨ b.getLast? = some lf ∨ s' = []) :
    p ++ b = [] ∨ (p ++ b).getLast? = some lf ∨ s' = [] := by
  rcases hp with hp | hp
  · rcases hb with hb | hb | hb
    · exact .inr (.inl (by rw [hb, List.append_nil, hp]))
    · exact .inr (.inl (by rw [List.getLast?_append, hb]; rfl))
    · exact .inr (.inr hb)
  · exact .inr (.inr (List.append_eq_nil_iff.mp (hs ▸ hp)).2)

section Scan

variable (keeps : Bytes → Bool) (count budget : ℕ)

/-- The greedy page of `l` on top of what a read has collected. -/
def pageOn (st : Forward) (l : List (ℕ × Bytes)) : List (ℕ × Bytes) :=
  greedyFrom weight count budget st.collected.length st.collectedBytes l

/-- What a read has taken of the lines `l` in front of it, going from `st` to `st'`, when the lines
`rest` are left. -/
structure Takes (st st' : Forward) (l rest : List (ℕ × Bytes)) (taken : List (ℕ × Bytes)) : Prop where
  collected : st'.collected = st.collected ++ taken
  split : l = taken ++ rest
  page : ∀ more, pageOn count budget st (l ++ more) = taken ++ pageOn count budget st' (rest ++ more)

/-- The loops are over, and rightly so: nothing of the lines left fits on the page. -/
structure Stopped (st : Forward) (rest : List (ℕ × Bytes)) : Prop where
  flags : ¬ (st.collected.length < count ∧ st.budgetHit = false)
  page : ∀ more, pageOn count budget st (rest ++ more) = []

theorem takes_nothing (st st' : Forward) (l : List (ℕ × Bytes)) (hc : st'.collected = st.collected)
    (hb : st'.collectedBytes = st.collectedBytes) : Takes count budget st st' l l [] := by
  refine ⟨by rw [hc, List.append_nil], rfl, ?_⟩
  intro more
  rw [pageOn, pageOn, hc, hb]
  rfl

theorem stopped_of_full (st : Forward) (rest : List (ℕ × Bytes)) (h : ¬ st.collected.length < count) :
    Stopped count budget st rest := by
  refine ⟨fun hf => h hf.1, ?_⟩
  intro more
  exact greedyFrom_full weight count budget _ _ _ h

theorem stopped_of_budget (st st' : Forward) (o : ℕ) (raw : Bytes) (rest : List (ℕ × Bytes))
    (hc : st'.collected = st.collected) (hb : st'.collectedBytes = st.collectedBytes)
    (hhit : st'.budgetHit = true) (h : 0 < st.collected.length ∧ budget < st.collectedBytes + raw.length) :
    Stopped count budget st' ((o, raw) :: rest) := by
  refine ⟨by simp [hhit], ?_⟩
  intro more
  unfold pageOn
  rw [List.cons_append, greedyFrom, if_neg]
  intro hp
  rw [hc, hb, weight_mk] at hp
  omega

theorem takes_line (st : Forward) (o : ℕ) (raw : Bytes) (next : ℕ) (first : ℕ) (l rest taken : List (ℕ × Bytes))
    (st' : Forward) (hcount : st.collected.length < count)
    (hbudget : ¬ (0 < st.collected.length ∧ budget < st.collectedBytes + raw.length))
    (h : Takes count budget ⟨st.collected ++ [(o, raw)], st.collectedBytes + raw.length, st.budgetHit,
      first, next⟩
        st' l rest taken) :
    Takes count budget st st' ((o, raw) :: l) rest ((o, raw) :: taken) := by
  refine ⟨?_, ?_, ?_⟩
  · rw [h.collected, List.append_assoc, List.singleton_append]
  · rw [h.split, List.cons_append]
  · intro more
    have hpage := h.page more
    unfold pageOn at hpage ⊢
    simp only [List.length_append, List.length_singleton] at hpage
    rw [List.cons_append, greedyFrom, weight_mk, if_pos ⟨hcount, by omega⟩, List.cons_append, ← hpage]

theorem kept_single (o : ℕ) (raw : Bytes) :
    kept keeps [(o, raw)] = if 0 < raw.length ∧ keeps raw = true then [(o, raw)] else [] := by
  unfold kept
  cases raw with
  | nil => rfl
  | cons c raw =>
    cases hk : keeps (c :: raw) with
    | false => simp [hk]
    | true => simp [hk]

/-- One file, from the line start `o` with the text `t` in front: the loop stops at a line start or at
the file's end, in front of what it did not take. -/
theorem scanFile_spec (t : Bytes) (o : ℕ) (st : Forward) (hnext : st.nextOffset = o)
    (hhit : st.budgetHit = false) :
    ∃ b s taken st', scanFile keeps count budget (o + t.length) (scanLines t) o st = st' ∧
      t = b ++ s ∧ (b = [] ∨ b.getLast? = some lf ∨ s = []) ∧ st'.nextOffset = o + b.length ∧
      (taken ≠ [] → b ≠ []) ∧
      Takes count budget st st' (kept keeps (splitLines o t)) (kept keeps (splitLines (o + b.length) s)) taken ∧
      (s = [] ∧ st'.budgetHit = false ∨
        Stopped count budget st' (kept keeps (splitLines (o + b.length) s))) := by
  -- by induction on the text left in front of the cursor, one token at a time
  induction hn : t.length using Nat.strongRecOn generalizing t o st with
  | ind n ih =>
    by_cases ht : t = []
    · subst ht
      exact ⟨[], [], [], st, rfl, rfl, .inl rfl, hnext, by simp, takes_nothing count budget st st _ rfl rfl,
        .inl ⟨rfl, hhit⟩⟩
    obtain ⟨raw, p, s, hps, hp, hend, hmin, htok, hlines⟩ := first_piece t ht
    have hplen := List.length_pos_iff.mpr hp
    have hlen : t.length = p.length + s.length := by rw [hps, List.length_append]
    have hfile : o + t.length = o + p.length + s.length := by omega
    rw [← hn, htok, scanFile]
    by_cases hcount : st.collected.length < count
    · rw [if_pos hcount]
      simp only [hmin]
      by_cases hkeep : 0 < raw.length ∧ keeps raw = true
      · rw [if_pos hkeep]
        have hk : kept keeps (splitLines o t) = (o, raw) :: kept keeps (splitLines (o + p.length) s) := by
          rw [hlines, kept_single, if_pos hkeep, List.singleton_append]
        by_cases hbudget : 0 < st.collected.length ∧ budget < st.collectedBytes + raw.length
        · rw [if_pos hbudget]
          refine ⟨[], t, [], _, rfl, rfl, .inl rfl, hnext,
            by simp, takes_nothing count budget st _ _ rfl rfl, .inr ?_⟩
          rw [List.length_nil, Nat.add_zero, hk]
          exact stopped_of_budget count budget st _ o raw _ rfl rfl rfl hbudget
        · rw [if_neg hbudget, hfile]
          obtain ⟨b, s', taken, st', hrun, hs, hb, hnx, -, htakes, hstop⟩ :=
            ih s.length (by omega) s (o + p.length)
              ⟨st.collected ++ [(o, raw)], st.collectedBytes + raw.length, st.budgetHit,
                if st.collected.length = 0 then o else st.firstOffset, o + p.length⟩ rfl hhit rfl
          refine ⟨p ++ b, s', (o, raw) :: taken, st', hrun,
            by rw [hps, hs, List.append_assoc], ?_, ?_, ?_, ?_, ?_⟩
          · exact line_end_append p b s s' hend hs hb
          · rw [hnx, List.length_append, Nat.add_assoc]
          · simp [hp]
          · rw [hk, List.length_append, ← Nat.add_assoc]
            exact takes_line count budget st o raw _ _ _ _ taken st' hcount hbudget htakes
          · rwa [List.length_append, ← Nat.add_assoc]
      · rw [if_neg hkeep, hfile]
        have hk : kept keeps (splitLines o t) = kept keeps (splitLines (o + p.length) s) := by
          rw [hlines, kept_single, if_neg hkeep, List.nil_append]
        obtain ⟨b, s', taken, st', hrun, hs, hb, hnx, -, htakes, hstop⟩ :=
          ih s.length (by omega) s (o + p.length) { st with nextOffset := o + p.length } rfl hhit rfl
        refine ⟨p ++ b, s', taken, st', hrun, by rw [hps, hs, List.append_assoc], ?_, ?_, ?_, ?_, ?_⟩
        · exact line_end_append p b s s' hend hs hb
        · rw [hnx, List.length_append, Nat.add_assoc]
        · simp [hp]
        · rw [hk, List.length_append, ← Nat.add_assoc]
          exact ⟨htakes.collected, htakes.split, htakes.page⟩
        · rwa [List.length_append, ← Nat.add_assoc]
    · rw [if_neg hcount]
      exact ⟨[], t, [], st, rfl, rfl, .inl rfl, hnext, by simp, takes_nothing count budget st st _ rfl rfl,
        .inr (stopped_of_full count budget st _ hcount)⟩

theorem Takes.trans (st st₁ st₂ : Forward) (l r₁ r₂ t₁ t₂ : List (ℕ × Bytes))
    (h₁ : Takes count budget st st₁ l r₁ t₁) (h₂ : Takes count budget st₁ st₂ r₁ r₂ t₂) :
    Takes count budget st st₂ l r₂ (t₁ ++ t₂) := by
  refine ⟨?_, ?_, ?_⟩
  · rw [h₂.collected, h₁.collected, List.append_assoc]
  · rw [h₁.split, h₂.split, List.append_assoc]
  · intro more
    rw [h₁.page, h₂.page, List.append_assoc]

theorem Takes.extend (st st' : Forward) (l rest taken m : List (ℕ × Bytes))
    (h : Takes count budget st st' l rest taken) : Takes count budget st st' (l ++ m) (rest ++ m) taken := by
  refine ⟨h.collected, by rw [h.split, List.append_assoc], ?_⟩
  intro more
  rw [List.append_assoc, List.append_assoc, h.page]

theorem Stopped.extend (st : Forward) (rest m : List (ℕ × Bytes)) (h : Stopped count budget st rest) :
    Stopped count budget st (rest ++ m) := by
  refine ⟨h.flags, ?_⟩
  intro more
  rw [List.append_assoc, h.page]

/-! ## The files -/

theorem scanLines_subset (s : Bytes) (o : ℕ) : ∀ l ∈ scanLines s, ∃ q, (q, l) ∈ splitLines o s := by
  induction hn : s.length using Nat.strongRecOn generalizing s o with
  | ind n ih =>
    intro l hl
    rcases lines_cases s with h | ⟨hne, h⟩ | ⟨m, t, hm, h⟩
    · rw [h] at hl
      exact absurd hl List.not_mem_nil
    · rw [scanLines_unterminated s hne h] at hl
      rw [splitLines_unterminated o s h, List.mem_singleton.mp hl]
      exact ⟨o, List.mem_singleton.mpr rfl⟩
    · rw [h, scanLines_terminated m t hm] at hl
      rw [h, splitLines_terminated o m t hm]
      rcases List.mem_cons.mp hl with rfl | hl
      · exact ⟨o, List.mem_cons_self⟩
      · have hlt : t.length < n := by
          rw [← hn, h, List.length_append, List.length_cons]
          omega
        obtain ⟨q, hq⟩ := ih t.length hlt t (o + (m.length + 1)) rfl l hl
        exact ⟨q, List.mem_cons_of_mem _ hq⟩

theorem scanTokens_plain (t : Bytes) (h : ∀ l ∈ scanLines t, Plain l) : scanTokens t = scanLines t := by
  unfold scanTokens
  have hfit : (scanLines t).takeWhile (fun l => decide (l.length < maxLineBytes)) = scanLines t :=
    List.takeWhile_eq_self_iff.mpr fun l hl => decide_eq_true (h l hl).1
  have hcr : ∀ l ∈ scanLines t, dropCR l = l := fun l hl => if_neg (h l hl).2
  rw [hfit, List.map_congr_left hcr, List.map_id']

variable (dir : Directory) (fc : FileChain)

/-- Offset `o` lies in the file `f`, behind its bytes `a` and in front of `t` and of the files `later`,
which hold the texts `cs`; it is a line start or the end of `f`. -/
structure At (o : ℕ) (f : ChainFile) (a t : Bytes) (later : List ChainFile) (cs : List Bytes) : Prop where
  files : ∃ pre bs, fc.files = pre ++ f :: later ∧ Holds dir 0 pre bs ∧ f.start = bs.flatten.length
  content : dir f.path = some (a ++ t)
  size : f.size = (a ++ t).length
  nonempty : a ++ t ≠ []
  rest : Holds dir (f.start + f.size) later cs
  offset : o = f.start + a.length
  boundary : a = [] ∨ a.getLast? = some lf ∨ t = []

/-- The filtered lines in front of a place in the chain. -/
def ahead (o : ℕ) (t : Bytes) (cs : List Bytes) : List (ℕ × Bytes) :=
  kept keeps (splitLines o t) ++ kept keeps (linesOf (o + t.length) cs)

theorem At.advance (o : ℕ) (f : ChainFile) (a t b s : Bytes) (later : List ChainFile) (cs : List Bytes)
    (h : At dir fc o f a t later cs) (ht : t = b ++ s) (hb : b = [] ∨ b.getLast? = some lf ∨ s = []) :
    At dir fc (o + b.length) f (a ++ b) s later cs := by
  have hc : a ++ b ++ s = a ++ t := by rw [ht, List.append_assoc]
  refine ⟨h.files, by rw [hc, h.content], by rw [hc, h.size], by rw [hc]; exact h.nonempty, h.rest, ?_, ?_⟩
  · rw [h.offset, List.length_append, Nat.add_assoc]
  · rcases hb with hb | hb | hb
    · rcases h.boundary with ha | ha | ha
      · exact .inl (by rw [ha, hb]; rfl)
      · exact .inr (.inl (by rw [hb, List.append_nil, ha]))
      · exact .inr (.inr (List.append_eq_nil_iff.mp (ht ▸ ha)).2)
    · exact .inr (.inl (by rw [List.getLast?_append, hb]; rfl))
    · exact .inr (.inr hb)

/-- The end of a file is the start of the next one. -/
theorem At.next_file (o : ℕ) (f g : ChainFile) (a : Bytes) (later : List ChainFile) (cs : List Bytes)
    (h : At dir fc o f a [] (g :: later) cs) :
    ∃ c ds, cs = c :: ds ∧ At dir fc o g [] c later ds := by
  obtain ⟨pre, bs, hfiles, hpre, hstart⟩ := h.files
  have hsize : f.size = a.length := by rw [h.size, List.append_nil]
  have hcont : dir f.path = some a := by rw [h.content, List.append_nil]
  have hne : a ≠ [] := fun e => h.nonempty (by rw [e]; rfl)
  have ho : o = f.start + f.size := by rw [hsize]; exact h.offset
  cases h.rest with
  | cons _ _ _ c ds start content size nonempty tail =>
    have hone : Holds dir f.start [f] [a] := .cons f.start f [] a [] rfl hcont hsize hne (.nil _)
    refine ⟨c, ds, rfl, ⟨pre ++ [f], bs ++ [a], ?_, ?_, ?_⟩, content, size, nonempty, ?_, ?_, .inl rfl⟩
    · rw [hfiles, List.append_assoc, List.singleton_append]
    · exact Holds.append dir 0 pre [f] bs [a] hpre (by rw [Nat.zero_add, ← hstart]; exact hone)
    · rw [start, List.flatten_append, List.length_append, ← hstart, hsize]
      simp
    · rw [start, size]
      exact tail
    · rw [start, ho]
      rfl

variable (hplain : ∀ f ∈ fc.files, ∀ c, dir f.path = some c → ∀ p ∈ splitLines f.start c, Plain p.2)

include hplain in
theorem At.tokens (o : ℕ) (f : ChainFile) (a t : Bytes) (later : List ChainFile) (cs : List Bytes)
    (h : At dir fc o f a t later cs) : scanTokens t = scanLines t := by
  obtain ⟨pre, bs, hfiles, -, -⟩ := h.files
  have hmem : f ∈ fc.files := by rw [hfiles]; simp
  apply scanTokens_plain
  intro l hl
  have hline : ∃ q, (q, l) ∈ splitLines f.start (a ++ t) := by
    rcases h.boundary with ha | ha | ht
    · rw [ha, List.nil_append]
      exact scanLines_subset t f.start l hl
    · obtain ⟨b, rfl⟩ : ∃ b, a = b ++ [lf] :=
        ⟨a.dropLast, (List.dropLast_append_getLast? lf (by simp [ha])).symm⟩
      obtain ⟨q, hq⟩ := scanLines_subset t (f.start + (b.length + 1)) l hl
      rw [List.append_assoc, List.singleton_append, splitLines_append_lf]
      exact ⟨q, List.mem_append_right _ hq⟩
    · rw [ht] at hl
      exact absurd hl List.not_mem_nil
  obtain ⟨q, hq⟩ := hline
  exact hplain f hmem _ h.content (q, l) hq

theorem readFiles_stopped (view : ℕ → Directory) (k : ℕ) (files : List ChainFile) (physOffset : ℕ)
    (st : Forward) (h : ¬ (st.collected.length < count ∧ st.budgetHit = false)) :
    readFiles view keeps count budget k files physOffset st = st := by
  cases files with
  | nil => rfl
  | cons f files => rw [readFiles, if_neg h]

include hplain in
/-- One pass of the loop over the files. -/
theorem readFiles_step (later : List ChainFile) (k o : ℕ) (f : ChainFile) (a t : Bytes) (cs : List Bytes)
    (st : Forward) (h : At dir fc o f a t later cs) (hnext : st.nextOffset = o)
    (hcount : st.collected.length < count) (hhit : st.budgetHit = false) :
    ∃ st' b s taken,
      readFiles (fun _ => dir) keeps count budget k (f :: later) a.length st =
        readFiles (fun _ => dir) keeps count budget (k + 1) later 0 st' ∧
      At dir fc (o + b.length) f (a ++ b) s later cs ∧ st'.nextOffset = o + b.length ∧ (taken ≠ [] → b ≠ []) ∧
      Takes count budget st st' (ahead keeps o t cs) (ahead keeps (o + b.length) s cs) taken ∧
      (s = [] ∧ st'.budgetHit = false ∨ Stopped count budget st' (ahead keeps (o + b.length) s cs)) := by
  have hlen : f.size = a.length + t.length := by rw [h.size, List.length_append]
  have hwindow : ((a ++ t).drop a.length).take (f.size - a.length) = t := by
    rw [List.drop_left, hlen, Nat.add_sub_cancel_left, List.take_length]
  have hend : f.start + f.size = o + t.length := by rw [h.offset, hlen, Nat.add_assoc]
  obtain ⟨b, s, taken, st', hrun, hbs, hb, hnx, hmove, htakes, hstop⟩ :=
    scanFile_spec keeps count budget t o st hnext hhit
  have hrest : ahead keeps (o + b.length) s cs =
      kept keeps (splitLines (o + b.length) s) ++ kept keeps (linesOf (o + t.length) cs) := by
    rw [ahead, hbs, List.length_append, Nat.add_assoc]
  refine ⟨st', b, s, taken, ?_, h.advance dir fc o f a t b s later cs hbs hb, hnx, hmove, ?_, ?_⟩
  · rw [readFiles, if_pos ⟨hcount, hhit⟩, h.content]
    simp only [hwindow]
    rw [h.tokens dir fc hplain o f a t later cs, hend, ← h.offset, hrun]
  · rw [hrest]
    exact htakes.extend count budget st st' _ _ taken _
  · rw [hrest]
    rcases hstop with hdone | hstop
    · exact .inl hdone
    · exact .inr (hstop.extend count budget st' _ _)

include hplain in
/-- All files from a place on: the loops stop at a line start or a file end, and either the page is
full there or nothing is left of the chain. -/
theorem readFiles_spec (later : List ChainFile) (k o : ℕ) (f : ChainFile) (a t : Bytes) (cs : List Bytes)
    (st : Forward) (h : At dir fc o f a t later cs) (hnext : st.nextOffset = o) (hhit : st.budgetHit = false) :
    ∃ st' f' a' t' later' cs' taken,
      readFiles (fun _ => dir) keeps count budget k (f :: later) a.length st = st' ∧
      At dir fc st'.nextOffset f' a' t' later' cs' ∧ o ≤ st'.nextOffset ∧ (taken ≠ [] → o < st'.nextOffset) ∧
      Takes count budget st st' (ahead keeps o t cs) (ahead keeps st'.nextOffset t' cs') taken ∧
      pageOn count budget st' (ahead keeps st'.nextOffset t' cs') = [] := by
  -- one file at a time; a file read to its end leaves the cursor at the start of the next
  induction hn : later.length using Nat.strongRecOn generalizing later k o f a t cs st with
  | ind n ih =>
    by_cases hcount : st.collected.length < count
    · obtain ⟨st₁, b, s, taken, hrun, hat, hnx, hmove, htakes, hstop⟩ :=
        readFiles_step keeps count budget dir fc hplain later k o f a t cs st h hnext hcount hhit
      have hforward : taken ≠ [] → o < o + b.length := by
        intro htaken
        have := List.length_pos_iff.mpr (hmove htaken)
        omega
      rcases hstop with ⟨hs, hhit₁⟩ | hstop
      · subst hs
        cases later with
        | nil =>
          cases hat.rest
          exact ⟨st₁, f, a ++ b, [], [], [], taken, hrun, hnx ▸ hat,
            by omega, hnx ▸ hforward, hnx ▸ htakes, rfl⟩
        | cons g later =>
          obtain ⟨c, ds, rfl, hg⟩ := hat.next_file dir fc _ f g _ later cs
          obtain ⟨st', f', a', t', later', cs', taken', hrun', hat', hle, hlt, htakes', hpage⟩ :=
            ih later.length (by rw [← hn, List.length_cons]; omega) later (k + 1) _ g
              [] c ds st₁ hg hnx hhit₁ rfl
          have hsame : ahead keeps (o + b.length) [] (c :: ds) = ahead keeps (o + b.length) c ds := by
            rw [ahead, kept_splitLines_nil, List.nil_append, linesOf, kept_append]
            rfl
          rw [hsame] at htakes
          refine ⟨st', f', a', t', later', cs', taken ++ taken', hrun.trans hrun', hat', by omega, ?_,
            htakes.trans count budget st st₁ st' _ _ _ taken taken' htakes', hpage⟩
          intro hne
          by_cases htaken : taken = []
          · have := hlt (by rw [htaken] at hne; exact hne)
            omega
          · have := hforward htaken
            omega
      · have hrun' := hrun.trans (readFiles_stopped keeps count budget _ (k + 1) later 0 st₁ hstop.flags)
        have hpage := hstop.page []
        rw [List.append_nil] at hpage
        exact ⟨st₁, f, a ++ b, s, later, cs, taken, hrun', hnx ▸ hat,
          by omega, hnx ▸ hforward, hnx ▸ htakes, hnx ▸ hpage⟩
    · have hpage := (stopped_of_full count budget st (ahead keeps o t cs) hcount).page []
      rw [List.append_nil] at hpage
      exact ⟨st, f, a, t, later, cs, [], readFiles_stopped keeps count budget _ k _ _ st
        (fun hf => hcount hf.1), hnext ▸ h,
        by omega, by simp, hnext ▸ takes_nothing count budget st st _ rfl rfl, hnext ▸ hpage⟩

/-! ## One page -/

/-- A line start or the end of a file. -/
def Boundary (o : ℕ) : Prop :=
  ∃ f ∈ fc.files, ∃ a t, dir f.path = some (a ++ t) ∧ o = f.start + a.length ∧
    (a = [] ∨ a.getLast? = some lf ∨ t = [])

/-- The cursor stands in front of the lines `l`. -/
def InFront (o : ℕ) (l : List (ℕ × Bytes)) : Prop :=
  fc.files = [] ∧ l = [] ∨
    ∃ f a t later cs, At dir fc o f a t later cs ∧ (t ≠ [] ∨ later = []) ∧ l = ahead keeps o t cs

theorem At.inFront (o : ℕ) (f : ChainFile) (a t : Bytes) (later : List ChainFile) (cs : List Bytes)
    (h : At dir fc o f a t later cs) : InFront keeps dir fc o (ahead keeps o t cs) := by
  by_cases ht : t = []
  · cases later with
    | nil => exact .inr ⟨f, a, t, [], cs, h, .inr rfl, rfl⟩
    | cons g later =>
      subst ht
      obtain ⟨c, ds, rfl, hg⟩ := h.next_file dir fc o f g a later cs
      refine .inr ⟨g, [], c, later, ds, hg, .inl hg.nonempty, ?_⟩
      rw [ahead, kept_splitLines_nil, List.nil_append, linesOf, kept_append]
      rfl
  · exact .inr ⟨f, a, t, later, cs, h, .inl ht, rfl⟩

variable (texts : List Bytes) (hfc : Holds dir 0 fc.files texts) (htotal : fc.total = texts.flatten.length)

include hfc htotal in
theorem At.fileAt_eq (o : ℕ) (f : ChainFile) (a t : Bytes) (later : List ChainFile) (cs : List Bytes)
    (h : At dir fc o f a t later cs) (hl : t ≠ [] ∨ later = []) :
    ∃ i, fc.fileAt o = (i, a.length) ∧ fc.files.drop i = f :: later := by
  obtain ⟨pre, bs, hfiles, hpre, hstart⟩ := h.files
  refine ⟨pre.length, ?_, by rw [hfiles, List.drop_left]⟩
  have hlen : f.size = a.length + t.length := by rw [h.size, List.length_append]
  by_cases ht : t = []
  · have hlater : later = [] := hl.resolve_left (fun hne => hne ht)
    rw [hlater] at hfiles
    have hend := Holds.last dir 0 pre f texts (hfiles ▸ hfc)
    rw [ht, List.length_nil, Nat.add_zero] at hlen
    rw [fileAt_end fc pre f hfiles o (by rw [htotal, h.offset]; omega), hlen]
  · have hpos := List.length_pos_iff.mpr ht
    have hend := hfc.end_le dir 0 _ texts f (by rw [hfiles]; simp)
    rw [h.offset]
    exact fileAt_inside dir fc pre f later bs hfiles hpre hstart a.length (by omega) (by omega)

theorem zip_fst_snd (l : List (ℕ × Bytes)) : (l.map Prod.fst).zip (l.map Prod.snd) = l := by
  induction l with
  | nil => rfl
  | cons p l ih => rw [List.map_cons, List.map_cons, List.zip_cons_cons, ih]

include hfc htotal hplain in
/-- A page read in front of `l` is the greedy page of `l`, and its cursor stands right behind it. -/
theorem readForward_spec (lower : Bytes → Bytes) (filter : Filter) (hkeeps : keeps = filter.matches lower)
    (hcount : 1 ≤ count) (o : ℕ) (l : List (ℕ × Bytes)) (hin : InFront keeps dir fc o l) :
    let page := fc.readForward (fun _ => dir) lower budget o count filter
    page.entries = greedy weight count budget l ∧ page.lines = page.entries.map Prod.snd ∧
      page.offsets = page.entries.map Prod.fst ∧
      (l ≠ [] → InFront keeps dir fc page.nextOffset (l.drop (greedy weight count budget l).length) ∧
        o < page.nextOffset ∧ Boundary dir fc page.nextOffset) := by
  intro page
  rcases hin with ⟨hnil, rfl⟩ | ⟨f, a, t, later, cs, hat, hl, rfl⟩
  · have hpage : page = ⟨[], [], o, o⟩ := if_pos (.inl (by rw [FileChain.empty, hnil]; rfl))
    rw [hpage]
    exact ⟨rfl, rfl, rfl, fun h => absurd rfl h⟩
  obtain ⟨i, hplace, hdrop⟩ := hat.fileAt_eq dir fc texts hfc htotal o f a t later cs hl
  obtain ⟨st', f', a', t', later', cs', taken, hrun, hat', -, hlt, htakes, hend⟩ :=
    readFiles_spec keeps count budget dir fc hplain later 0 o f a t cs ⟨[], 0, false, 0, o⟩ hat rfl rfl
  have hcollected : st'.collected = taken := by rw [htakes.collected, List.nil_append]
  have hgreedy : greedy weight count budget (ahead keeps o t cs) = taken := by
    have h := htakes.page []
    rwa [List.append_nil, List.append_nil, hend, List.append_nil] at h
  have hnonempty : ¬ (fc.empty = true ∨ count = 0) := by
    obtain ⟨pre, bs, hfiles, -, -⟩ := hat.files
    rw [FileChain.empty, hfiles]
    simp
    omega
  have hpage : page = if st'.collected.length = 0 then ⟨[], [], o, o⟩
      else ⟨st'.collected.map Prod.snd, st'.collected.map Prod.fst, st'.firstOffset, st'.nextOffset⟩ := by
    unfold page FileChain.readForward
    rw [if_neg hnonempty, hplace]
    simp only [hdrop]
    rw [← hkeeps, hrun]
  rw [hcollected] at hpage
  by_cases htaken : taken = []
  · rw [htaken, List.length_nil, if_pos rfl] at hpage
    rw [hpage, hgreedy, htaken]
    refine ⟨rfl, rfl, rfl, fun hne => absurd ?_ hne⟩
    exact (greedy_eq_nil weight count budget hcount _).mp (hgreedy.trans htaken)
  · rw [if_neg (fun e => htaken (List.length_eq_zero_iff.mp e))] at hpage
    have hentries : page.entries = taken := by
      rw [hpage]
      exact zip_fst_snd taken
    have hrest : (ahead keeps o t cs).drop taken.length = ahead keeps st'.nextOffset t' cs' := by
      rw [htakes.split, List.drop_left]
    rw [hentries, hgreedy, hpage, hrest]
    refine ⟨rfl, rfl, rfl, fun _ => ⟨hat'.inFront keeps dir fc _ f' a' t' later' cs', hlt htaken, ?_⟩⟩
    obtain ⟨pre, bs, hfiles, -, -⟩ := hat'.files
    exact ⟨f', by rw [hfiles]; simp, a', t', hat'.content, hat'.offset, hat'.boundary⟩

end Scan

/-! ## All pages -/

/-- Before anything is read, the cursor stands in front of all lines. -/
theorem inFront_zero (keeps : Bytes → Bool) (dir : Directory) (fc : FileChain) (texts : List Bytes)
    (h : Holds dir 0 fc.files texts) : InFront keeps dir fc 0 (kept keeps (linesOf 0 texts)) := by
  cases hfs : fc.files with
  | nil =>
    rw [hfs] at h
    cases h
    exact .inl ⟨hfs, rfl⟩
  | cons f later =>
    rw [hfs] at h
    cases h with
    | cons _ _ _ c cs start content size nonempty tail =>
      have hat : At dir fc 0 f [] c later cs :=
        ⟨⟨[], [], hfs, .nil 0, start⟩, content, size, nonempty,
          by rw [start, size]; exact tail, by rw [start]; rfl, .inl rfl⟩
      have hin := hat.inFront keeps dir fc 0 f [] c later cs
      rwa [ahead, ← kept_append] at hin

section Pages

variable (lower : Bytes → Bytes) (dir : Directory) (sink : Sink) (filter : Filter) (count maxResponseBytes : ℕ)

theorem chain_plain (hlines : ∀ p ∈ chainLines dir sink, p.2.length < maxLineBytes ∧ p.2.getLast? ≠ some cr) :
    ∀ f ∈ (newFileChain (fun _ => dir) sink).files, ∀ c, dir f.path = some c → ∀ p ∈ splitLines f.start c,
    Plain p.2 :=
  fun f hf c hc p hp => hlines p ((newFileChain_holds dir sink).lines_mem dir 0 _ _ f hf c hc p hp)

/-- The client's loop ends, and its pages hold all lines wanted. -/
theorem forward_pages (hcount : 1 ≤ count)
    (hlines : ∀ p ∈ chainLines dir sink, p.2.length < maxLineBytes ∧ p.2.getLast? ≠ some cr) :
    let fc := newFileChain (fun _ => dir) sink
    let read := fun o => fc.readForward (fun _ => dir) lower maxResponseBytes o count filter
    ∃ pages, Paging read Page.entries Page.nextOffset 0 pages ∧
      pages.flatMap (fun p => p.2.entries) = kept (filter.matches lower) (chainLines dir sink) ∧
      ∀ p ∈ pages, ∃ rest, rest ≠ [] ∧ InFront (filter.matches lower) dir fc p.1 rest ∧ p.2 = read p.1 := by
  intro fc read
  have hspec := readForward_spec (filter.matches lower) count maxResponseBytes dir fc
    (chain_plain dir sink hlines) _ (newFileChain_holds dir sink)
    (newFileChain_total dir sink) lower filter rfl hcount
  exact paging_complete read Page.entries Page.nextOffset weight count maxResponseBytes hcount
    (InFront (filter.matches lower) dir fc) (fun o l h => (hspec o l h).1)
    (fun o l h hl => ((hspec o l h).2.2.2 hl).1)
    0 _ (inFront_zero _ dir fc _ (newFileChain_holds dir sink))

/-- Forward paging over a chain that does not change: the client's loop from offset 0 ends, its pages
hold every non-empty line that passes the filter, once and in order, at the offset where the line
stands in the chain; no page is over the line count or, unless it is a single line, over the byte
budget; and every page moves the cursor forward, to a line start or the end of a file. -/
theorem readForward_paging_complete (hcount : 1 ≤ count)
    (hlines : ∀ p ∈ chainLines dir sink, p.2.length < maxLineBytes ∧ p.2.getLast? ≠ some cr) :
    let fc := newFileChain (fun _ => dir) sink
    let wanted := kept (filter.matches lower) (chainLines dir sink)
    ∃ pages, Paging (fun o => fc.readForward (fun _ => dir) lower maxResponseBytes o count filter)
        Page.entries Page.nextOffset 0 pages ∧
      pages.flatMap (fun p => p.2.entries) = wanted ∧
      wanted.Pairwise (fun p q => p.1 < q.1) ∧
      (∀ e ∈ wanted, ∃ before after, (chainTexts dir sink).flatten = before ++ e.2 ++ after ∧
        e.1 = before.length) ∧
      ∀ p ∈ pages, p.2.lines.length = p.2.offsets.length ∧ p.2.lines.length ≤ count ∧
        ((p.2.lines.map List.length).sum ≤ maxResponseBytes ∨ p.2.lines.length = 1) ∧
        p.1 < p.2.nextOffset ∧ Boundary dir fc p.2.nextOffset := by
  intro fc wanted
  obtain ⟨pages, hpaging, hflat, hall⟩ :=
    forward_pages lower dir sink filter count maxResponseBytes hcount hlines
  refine ⟨pages, hpaging, hflat, kept_pairwise _ 0 _, ?_, ?_⟩
  · intro e he
    obtain ⟨before, after, htext, ho⟩ := linesOf_position 0 _ e (List.mem_filter.mp he).1
    exact ⟨before, after, htext, by rw [ho, Nat.zero_add]⟩
  · intro p hp
    obtain ⟨rest, hrest, hin, hread⟩ := hall p hp
    obtain ⟨hentries, hls, hos, hmove⟩ := readForward_spec (filter.matches lower) count maxResponseBytes dir fc
      (chain_plain dir sink hlines) _ (newFileChain_holds dir sink)
      (newFileChain_total dir sink) lower filter rfl hcount
      p.1 rest hin
    obtain ⟨-, hlt, hboundary⟩ := hmove hrest
    have hpage : fc.readForward (fun _ => dir) lower maxResponseBytes p.1 count filter = p.2 := hread.symm
    rw [hpage] at hentries hls hos hlt hboundary
    have hsum : p.2.lines.map List.length = (greedy weight count maxResponseBytes rest).map weight := by
      rw [hls, hentries, List.map_map]
      rfl
    have hlen : p.2.lines.length = (greedy weight count maxResponseBytes rest).length := by
      rw [hls, hentries, List.length_map]
    refine ⟨by rw [hls, hos, List.length_map, List.length_map], ?_, ?_, hlt, hboundary⟩
    · rw [hlen]
      exact greedy_length weight count maxResponseBytes rest
    · rw [hsum, hlen]
      exact greedy_weight weight count maxResponseBytes rest

end Pages

/-- A rotated file that was cut short, with a blank line in it, and an active file. -/
def cutShort : Directory := fun path =>
  if path = ascii "/l/s.1.jsonl" then some (ascii "\x7ba\x7d\n\n\x7bb")
  else if path = ascii "/l/s.jsonl" then some (ascii "\x7bc\x7d\n")
  else none

theorem readForward_paging_cutShort :
    ∃ pages, Paging (fun o => (newFileChain (fun _ => cutShort) ⟨ascii "s", ascii "/l/s.jsonl", 1⟩).readForward
        (fun _ => cutShort) id 3 o 2 ⟨[], [], [], []⟩) Page.entries Page.nextOffset 0 pages ∧
      pages.flatMap (fun p => p.2.entries) = [(0, ascii "\x7ba\x7d"), (5, ascii "\x7bb"),
        (7, ascii "\x7bc\x7d")] := by
  have hlines : ∀ p ∈ chainLines cutShort ⟨ascii "s", ascii "/l/s.jsonl", 1⟩,
      p.2.length < maxLineBytes ∧ p.2.getLast? ≠ some cr := by decide +kernel
  obtain ⟨pages, hpaging, hflat, -⟩ :=
    readForward_paging_complete id cutShort ⟨ascii "s", ascii "/l/s.jsonl", 1⟩ ⟨[], [], [], []⟩ 2 3 (by decide)
      hlines
  exact ⟨pages, hpaging, hflat.trans (by decide +kernel)⟩

end Minilog.Viewer
