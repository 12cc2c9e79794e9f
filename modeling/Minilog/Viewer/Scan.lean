import Minilog.Viewer.Forward

/-! What the forward reader does with files of any content.

`placed` gives the tokens of a scanner the offsets the loop counts for them, which need not be where the lines
stand. `scanFile_tokens` and `readFiles_tokens` say that a page is the greedy page of these, and where its
cursor is left; `placedEnd_split` goes back from tokens to bytes. -/
namespace Minilog.Viewer
open Lib
set_option autoImplicit false

/-- The position the loop counts behind a token. -/
def step (fileEnd cur : ℕ) (raw : Bytes) : ℕ := min (cur + (raw.length + 1)) fileEnd

/-- The tokens with the offsets the loop counts for them. -/
def placed (fileEnd : ℕ) : ℕ → List Bytes → List (ℕ × Bytes)
  | _, [] => []
  | cur, raw :: rest => (cur, raw) :: placed fileEnd (step fileEnd cur raw) rest

/-- The position behind all of the tokens. -/
def placedEnd (fileEnd : ℕ) : ℕ → List Bytes → ℕ
  | cur, [] => cur
  | cur, raw :: rest => placedEnd fileEnd (step fileEnd cur raw) rest

theorem placed_texts (fileEnd cur : ℕ) (toks : List Bytes) : (placed fileEnd cur toks).map Prod.snd = toks := by
  induction toks generalizing cur with
  | nil => rfl
  | cons raw toks ih => rw [placed, List.map_cons, ih]

theorem kept_cons (keeps : Bytes → Bool) (p : ℕ × Bytes) (l : List (ℕ × Bytes)) :
    kept keeps (p :: l) = kept keeps [p] ++ kept keeps l := kept_append keeps [p] l

theorem kept_cons_pos (keeps : Bytes → Bool) (p : ℕ × Bytes) (l : List (ℕ × Bytes))
    (h : (!p.2.isEmpty && keeps p.2) = true) : kept keeps (p :: l) = p :: kept keeps l :=
    List.filter_cons_of_pos h

section Tokens

variable (keeps : Bytes → Bool) (count budget : ℕ)

/-- One file: the tokens `done` are scanned, `rest` is left. -/
theorem scanFile_tokens (fileEnd : ℕ) (toks : List Bytes) (cur : ℕ) (st : Forward)
    (hhit : st.budgetHit = false) :
    ∃ done rest taken st', scanFile keeps count budget fileEnd toks cur st = st' ∧ toks = done ++ rest ∧
      st'.nextOffset = (if done = [] then st.nextOffset else placedEnd fileEnd cur done) ∧
      (taken ≠ [] → done ≠ []) ∧
      Takes count budget st st' (kept keeps (placed fileEnd cur toks))
        (kept keeps (placed fileEnd (placedEnd fileEnd cur done) rest)) taken ∧
      (rest = [] ∧ st'.budgetHit = false ∨
        Stopped count budget st' (kept keeps (placed fileEnd (placedEnd fileEnd cur done) rest))) := by
  induction toks generalizing cur st with
  | nil =>
    exact ⟨[], [], [], st, rfl, rfl, rfl, fun h => absurd rfl h, takes_nothing count budget st st _ rfl rfl,
      .inl ⟨rfl, hhit⟩⟩
  | cons raw toks ih =>
    -- the tokens behind the first one, once it has been dealt with
    have hbehind : ∀ st₁ : Forward, st₁.budgetHit = false → st₁.nextOffset = step fileEnd cur raw →
        ∃ done rest taken st', scanFile keeps count budget fileEnd toks (step fileEnd cur raw) st₁ = st' ∧
          toks = done ++ rest ∧ st'.nextOffset = placedEnd fileEnd cur (raw :: done) ∧
          Takes count budget st₁ st' (kept keeps (placed fileEnd (step fileEnd cur raw) toks))
            (kept keeps (placed fileEnd (placedEnd fileEnd cur (raw :: done)) rest)) taken ∧
          (rest = [] ∧ st'.budgetHit = false ∨
            Stopped count budget st' (kept keeps
              (placed fileEnd (placedEnd fileEnd cur (raw :: done)) rest))) := by
      intro st₁ hhit₁ hnext₁
      obtain ⟨done, rest, taken, st', hrun, htoks, hnext, -, htakes, hstop⟩ :=
        ih (step fileEnd cur raw) st₁ hhit₁
      refine ⟨done, rest, taken, st', hrun, htoks, ?_, htakes, hstop⟩
      rw [hnext, placedEnd]
      split
      · next hd => rw [hd, hnext₁, placedEnd]
      · rfl
    rw [scanFile, placed, kept_cons, kept_single]
    by_cases hcount : st.collected.length < count
    · rw [if_pos hcount]
      by_cases hkeep : 0 < raw.length ∧ keeps raw = true
      · rw [if_pos hkeep, if_pos hkeep, List.singleton_append]
        by_cases hbudget : 0 < st.collected.length ∧ budget < st.collectedBytes + raw.length
        · rw [if_pos hbudget]
          refine ⟨[], raw :: toks, [], _, rfl, rfl, rfl, fun h => absurd rfl h, ?_, .inr ?_⟩
          · rw [placedEnd, placed, kept_cons, kept_single, if_pos hkeep]
            exact takes_nothing count budget st _ _ rfl rfl
          · rw [placedEnd, placed, kept_cons, kept_single, if_pos hkeep]
            exact stopped_of_budget count budget st _ cur raw _ rfl rfl rfl hbudget
        · rw [if_neg hbudget]
          obtain ⟨done, rest, taken, st', hrun, htoks, hnext, htakes, hstop⟩ := hbehind
            ⟨st.collected ++ [(cur, raw)], st.collectedBytes + raw.length, st.budgetHit,
              if st.collected.length = 0 then cur else st.firstOffset, step fileEnd cur raw⟩ hhit rfl
          refine ⟨raw :: done, rest, (cur, raw) :: taken, st', hrun,
            by rw [htoks, List.cons_append], ?_, ?_, ?_, hstop⟩
          · rw [if_neg (List.cons_ne_nil raw done), hnext]
          · exact fun _ => List.cons_ne_nil raw done
          · exact takes_line count budget st cur raw _ _ _ _ taken st' hcount hbudget htakes
      · rw [if_neg hkeep, if_neg hkeep, List.nil_append]
        obtain ⟨done, rest, taken, st', hrun, htoks, hnext, htakes, hstop⟩ :=
          hbehind { st with nextOffset := step fileEnd cur raw } hhit rfl
        refine ⟨raw :: done, rest, taken, st', hrun, by rw [htoks, List.cons_append], ?_, ?_, ?_, hstop⟩
        · rw [if_neg (List.cons_ne_nil raw done), hnext]
        · exact fun _ => List.cons_ne_nil raw done
        · exact ⟨htakes.collected, htakes.split, htakes.page⟩
    · rw [if_neg hcount]
      refine ⟨[], raw :: toks, [], st, rfl, rfl, rfl, fun h => absurd rfl h, ?_,
        .inr (stopped_of_full count budget st _ hcount)⟩
      rw [placedEnd, placed, kept_cons, kept_single]
      exact takes_nothing count budget st st _ rfl rfl

/-! ## The files -/

variable (dir : Directory)

/-- The part of a file that a read sees. -/
def window (c : Bytes) (f : ChainFile) (phys : ℕ) : Bytes := (c.drop phys).take (f.size - phys)

/-- The tokens of one file, `phys` bytes into it. -/
def fileTokens (f : ChainFile) (phys : ℕ) : List Bytes :=
  match dir f.path with
  | none => []
  | some c => scanTokens (window c f phys)

/-- What a read from a place on sees, with the offsets counted. -/
def sees : List ChainFile → ℕ → List (ℕ × Bytes)
  | [], _ => []
  | f :: fs, phys => placed (f.start + f.size) (f.start + phys) (fileTokens dir f phys) ++ sees fs 0

/-- Where a read leaves its cursor: behind the tokens `done` of the file `f`, with `left` still in front. -/
structure Leaves (files : List ChainFile) (phys next : ℕ) (left : List (ℕ × Bytes)) : Prop where
  place : ∃ pre f post ph done rest, files = pre ++ f :: post ∧ (pre = [] ∧ ph = phys ∨ pre ≠ [] ∧ ph = 0) ∧
    fileTokens dir f ph = done ++ rest ∧ done ≠ [] ∧ next = placedEnd (f.start + f.size) (f.start + ph) done ∧
    left = kept keeps (placed (f.start + f.size) next rest) ++ kept keeps (sees dir post 0)

theorem Leaves.later (f : ChainFile) (fs : List ChainFile) (phys next : ℕ) (left : List (ℕ × Bytes))
    (h : Leaves keeps dir fs 0 next left) : Leaves keeps dir (f :: fs) phys next left := by
  obtain ⟨pre, g, post, ph, done, rest, hfs, hph, htoks, hdone, hnext, hleft⟩ := h.place
  refine ⟨f :: pre, g, post, ph, done, rest, by rw [hfs, List.cons_append], ?_, htoks, hdone, hnext, hleft⟩
  cases hph with
  | inl h0 => exact .inr ⟨List.cons_ne_nil f pre, h0.2⟩
  | inr h0 => exact .inr ⟨List.cons_ne_nil f pre, h0.2⟩

/-- All files: a page is the greedy page of what is seen; either no token was scanned, or the cursor is left
behind one. -/
theorem readFiles_tokens (files : List ChainFile) (k phys : ℕ) (st : Forward) (hhit : st.budgetHit = false) :
    ∃ left taken st', readFiles (fun _ => dir) keeps count budget k files phys st = st' ∧
      Takes count budget st st' (kept keeps (sees dir files phys)) left taken ∧
      pageOn count budget st' left = [] ∧
      (taken = [] ∧ st'.nextOffset = st.nextOffset ∨ Leaves keeps dir files phys st'.nextOffset left) := by
  induction files generalizing k phys st with
  | nil => exact ⟨[], [], st, rfl, takes_nothing count budget st st _ rfl rfl, rfl, .inl ⟨rfl, rfl⟩⟩
  | cons f fs ih =>
    by_cases hcount : st.collected.length < count
    · -- one file, and then the rest of them
      have hrun : ∃ done rest taken st₁, readFiles (fun _ => dir) keeps count budget k (f :: fs) phys st =
            readFiles (fun _ => dir) keeps count budget (k + 1) fs 0 st₁ ∧
          fileTokens dir f phys = done ++ rest ∧
          st₁.nextOffset = (if done = [] then st.nextOffset else placedEnd (f.start + f.size)
            (f.start + phys) done) ∧
          (taken ≠ [] → done ≠ []) ∧
          Takes count budget st st₁ (kept keeps
            (placed (f.start + f.size) (f.start + phys) (fileTokens dir f phys)))
            (kept keeps (placed (f.start + f.size)
              (placedEnd (f.start + f.size) (f.start + phys) done) rest)) taken ∧
          (rest = [] ∧ st₁.budgetHit = false ∨ Stopped count budget st₁
            (kept keeps (placed (f.start + f.size)
              (placedEnd (f.start + f.size) (f.start + phys) done) rest))) := by
        rw [readFiles, if_pos ⟨hcount, hhit⟩]
        unfold fileTokens
        cases hc : dir f.path with
        | none =>
          exact ⟨[], [], [], st, rfl, rfl, rfl, fun h => absurd rfl h,
            takes_nothing count budget st st _ rfl rfl, .inl ⟨rfl, hhit⟩⟩
        | some c =>
          obtain ⟨done, rest, taken, st₁, h₁, h₂, h₃, h₄, h₅, h₆⟩ :=
            scanFile_tokens keeps count budget (f.start + f.size) (scanTokens (window c f phys))
            (f.start + phys) st hhit
          refine ⟨done, rest, taken, st₁, ?_, h₂, h₃, h₄, h₅, h₆⟩
          rw [← h₁]
          rfl
      obtain ⟨done, rest, taken, st₁, hrun, htoks, hnext, hmove, htakes, hstop⟩ := hrun
      have hpost : done ≠ [] → ∀ next, next = placedEnd (f.start + f.size) (f.start + phys) done →
          Leaves keeps dir (f :: fs) phys next (kept keeps (placed (f.start + f.size) next rest) ++
            kept keeps (sees dir fs 0)) :=
        fun hd next hn => ⟨[], f, fs, phys, done, rest, rfl, .inl ⟨rfl, rfl⟩, htoks, hd, hn, rfl⟩
      rw [sees, kept_append]
      cases hstop with
      | inr hstopped =>
        refine ⟨_, taken, st₁, hrun.trans (readFiles_stopped keeps count budget _
          (k + 1) fs 0 st₁ hstopped.flags), htakes.extend count budget st st₁ _ _ taken _, hstopped.page _, ?_⟩
        by_cases hd : done = []
        · rw [if_pos hd] at hnext
          exact .inl ⟨by_contra fun h => hmove h hd, hnext⟩
        · rw [if_neg hd] at hnext
          rw [← hnext]
          exact .inr (hpost hd _ hnext)
      | inl hall =>
        obtain ⟨left, taken', st', hrun', htakes', hpage', hleaves'⟩ := ih (k + 1) 0 st₁ hall.2
        have hfirst := htakes.extend count budget st st₁ _ _ taken (kept keeps (sees dir fs 0))
        rw [hall.1] at hfirst
        refine ⟨left, taken ++ taken', st', hrun.trans hrun',
          hfirst.trans count budget st st₁ st' _ _ left taken taken' htakes', hpage', ?_⟩
        cases hleaves' with
        | inr hlater => exact .inr (hlater.later keeps dir f fs phys _ left)
        | inl hnone =>
          by_cases hd : done = []
          · rw [if_pos hd] at hnext
            have htaken : taken = [] := by_contra fun h => hmove h hd
            exact .inl ⟨by rw [htaken, hnone.1, List.append_nil], hnone.2.trans hnext⟩
          · rw [if_neg hd] at hnext
            have hleft : left = kept keeps (sees dir fs 0) := by
              have hsplit := htakes'.split
              rw [hnone.1, List.nil_append] at hsplit
              exact hsplit.symm
            have hplace := hpost hd st'.nextOffset (hnone.2.trans hnext)
            rw [hall.1] at hplace
            rw [hleft]
            exact .inr hplace
    · refine ⟨_, [], st, readFiles_stopped keeps count budget _ k _ _ st (fun hf => hcount hf.1),
        takes_nothing count budget st st _ rfl rfl, ?_, .inl ⟨rfl, rfl⟩⟩
      have hpage := (stopped_of_full count budget st (kept keeps (sees dir (f :: fs) phys)) hcount).page []
      rwa [List.append_nil] at hpage

/-! ## One page -/

/-- What a read at offset `o` sees. -/
def seesAt (fc : FileChain) (o : ℕ) : List (ℕ × Bytes) :=
  sees dir (fc.files.drop (fc.fileAt o).1) (fc.fileAt o).2

/-- A page is the greedy page of what is seen, and its cursor is left in front of the rest. -/
theorem readForward_tokens (fc : FileChain) (lower : Bytes → Bytes) (filter : Filter)
    (hkeeps : keeps = filter.matches lower) (hcount : 1 ≤ count) (o : ℕ) :
    let page := fc.readForward (fun _ => dir) lower budget o count filter
    ∃ left, page.entries = greedy weight count budget (kept keeps (seesAt dir fc o)) ∧
      page.lines = page.entries.map Prod.snd ∧ page.offsets = page.entries.map Prod.fst ∧
      kept keeps (seesAt dir fc o) = page.entries ++ left ∧ (page.entries = [] → page.nextOffset = o) ∧
      (page.entries ≠ [] → Leaves keeps dir (fc.files.drop (fc.fileAt o).1)
        (fc.fileAt o).2 page.nextOffset left) := by
  intro page
  obtain ⟨left, taken, st', hrun, htakes, hpage, hnext⟩ := readFiles_tokens keeps count budget dir
    (fc.files.drop (fc.fileAt o).1) 0 (fc.fileAt o).2 ⟨[], 0, false, 0, o⟩ rfl
  have hcollected : st'.collected = taken := by rw [htakes.collected, List.nil_append]
  have hgreedy : greedy weight count budget (kept keeps (seesAt dir fc o)) = taken := by
    have h := htakes.page []
    rwa [List.append_nil, List.append_nil, hpage, List.append_nil] at h
  have hvalue : page = if taken.length = 0 then ⟨[], [], o, o⟩
      else ⟨taken.map Prod.snd, taken.map Prod.fst, st'.firstOffset, st'.nextOffset⟩ := by
    unfold page FileChain.readForward
    by_cases hempty : fc.empty = true ∨ count = 0
    · have hfiles : fc.files = [] := List.isEmpty_iff.mp (hempty.resolve_right (by omega))
      have htaken : taken = [] := by
        rw [← hgreedy, seesAt, hfiles, List.drop_nil]
        rfl
      rw [if_pos hempty, htaken]
      rfl
    · rw [if_neg hempty, ← hkeeps]
      simp only
      rw [hrun, hcollected]
  by_cases htaken : taken = []
  · rw [htaken, List.length_nil, if_pos rfl] at hvalue
    rw [hvalue, hgreedy, htaken]
    refine ⟨left, rfl, rfl, rfl, ?_, fun _ => rfl, fun h => absurd rfl h⟩
    have hsplit := htakes.split
    rw [htaken] at hsplit
    exact hsplit
  · rw [if_neg (fun e => htaken (List.length_eq_zero_iff.mp e))] at hvalue
    have hentries : page.entries = taken := by
      rw [hvalue]
      exact zip_fst_snd taken
    rw [hentries, hgreedy, hvalue]
    refine ⟨left, rfl, rfl, rfl, htakes.split, fun h => absurd h htaken, fun _ => ?_⟩
    exact hnext.resolve_left fun h => htaken h.1

end Tokens

/-! ## From tokens to bytes -/

theorem scanTokens_terminated (l s : Bytes) (hl : lf ∉ l) :
    scanTokens (l ++ lf :: s) = if l.length < maxLineBytes then dropCR l :: scanTokens s else [] := by
  unfold scanTokens
  rw [scanLines_terminated l s hl]
  by_cases h : l.length < maxLineBytes
  · rw [List.takeWhile_cons_of_pos (by simpa using h), List.map_cons, if_pos h]
  · rw [List.takeWhile_cons_of_neg (by simpa using h), if_neg h]
    rfl

theorem scanTokens_unterminated (l : Bytes) (hne : l ≠ []) (hl : lf ∉ l) :
    scanTokens l = if l.length < maxLineBytes then [dropCR l] else [] := by
  unfold scanTokens
  rw [scanLines_unterminated l hne hl]
  by_cases h : l.length < maxLineBytes
  · rw [List.takeWhile_cons_of_pos (by simpa using h), if_pos h]
    rfl
  · rw [List.takeWhile_cons_of_neg (by simpa using h), if_neg h]
    rfl

/-- The token in front and the piece of the text it stands for. -/
theorem scanTokens_cases (t : Bytes) :
    scanTokens t = [] ∨ ∃ l p s, t = p ++ s ∧ (p = l ++ [lf] ∨ p = l ∧ l ≠ [] ∧ s = []) ∧ lf ∉ l ∧
    l.length < maxLineBytes ∧
      scanTokens t = dropCR l :: scanTokens s := by
  cases lines_cases t with
  | inl hnil =>
    rw [hnil]
    exact .inl rfl
  | inr h =>
    cases h with
    | inl h =>
      rw [scanTokens_unterminated t h.1 h.2]
      split
      · next hlen => exact .inr ⟨t, t, [], by simp, .inr ⟨rfl, h.1, rfl⟩, h.2, hlen, rfl⟩
      · exact .inl rfl
    | inr h =>
      obtain ⟨l, s, hl, rfl⟩ := h
      rw [scanTokens_terminated l s hl]
      split
      · next hlen => exact .inr ⟨l, l ++ [lf], s, by simp, .inl rfl, hl, hlen, rfl⟩
      · exact .inl rfl

/-- A text cut at a line end is scanned piece by piece, as long as nothing in the first piece is too long. -/
theorem scanTokens_append (p s : Bytes) (hp : p = [] ∨ p.getLast? = some lf)
    (hlen : ∀ l ∈ scanLines p, l.length < maxLineBytes) :
    scanTokens (p ++ s) = scanTokens p ++ scanTokens s := by
  induction hn : p.length using Nat.strongRecOn generalizing p with
  | ind n ih =>
    cases lines_cases p with
    | inl hnil =>
      rw [hnil]
      rfl
    | inr h =>
      cases h with
      | inl h => exact absurd (List.mem_of_getLast? (hp.resolve_left h.1)) h.2
      | inr h =>
        obtain ⟨l, t, hl, rfl⟩ := h
        rw [scanLines_terminated l t hl] at hlen
        have hlt : l.length < maxLineBytes := hlen l List.mem_cons_self
        have ht : t = [] ∨ t.getLast? = some lf := by
          by_cases ht : t = []
          · exact .inl ht
          · right
            have hlast := hp.resolve_left (by simp)
            rwa [List.getLast?_append, List.getLast?_cons_of_ne_nil ht, List.getLast?_eq_some_getLast ht,
              Option.some_or, ← List.getLast?_eq_some_getLast ht] at hlast
        have hrest := ih t.length (by rw [← hn, List.length_append, List.length_cons]; omega) t ht
          (fun m hm => hlen m (List.mem_cons_of_mem l hm)) rfl
        rw [List.append_assoc, List.cons_append, scanTokens_terminated l _ hl, scanTokens_terminated l t hl,
          if_pos hlt, if_pos hlt, hrest, List.cons_append]

/-! ## Lines ended by LF alone -/

/-- No line is ended by CRLF; a line that is cut short may still end in CR. -/
def NoCRLF (t : Bytes) : Prop := ∀ l ∈ closedLines t, l.getLast? ≠ some cr

/-- A line as the scanner hands it on. -/
def token (p : ℕ × Bytes) : ℕ × Bytes := (p.1, dropCR p.2)

/-- The tokens are counted where their lines stand. -/
theorem kept_placed (keeps : Bytes → Bool) (t : Bytes) (o : ℕ)
    (hlen : ∀ l ∈ scanLines t, l.length < maxLineBytes) (hcr : NoCRLF t) :
    kept keeps (placed (o + t.length) o (scanTokens t)) = kept keeps ((splitLines o t).map token) := by
  induction hn : t.length using Nat.strongRecOn generalizing t o with
  | ind n ih =>
    cases lines_cases t with
    | inl hnil =>
      subst hnil
      rfl
    | inr h =>
      cases h with
      | inl h =>
        rw [scanLines_unterminated t h.1 h.2] at hlen
        rw [scanTokens_unterminated t h.1 h.2, if_pos (hlen t (List.mem_singleton_self t)),
          splitLines_unterminated o t h.2]
        rfl
      | inr h =>
        obtain ⟨l, s, hl, rfl⟩ := h
        unfold NoCRLF at hcr
        rw [scanLines_terminated l s hl] at hlen
        rw [closedLines_terminated l s hl] at hcr
        have hdrop : dropCR l = l := if_neg (hcr l List.mem_cons_self)
        have hlength : (l ++ lf :: s).length = l.length + 1 + s.length := by
          rw [List.length_append, List.length_cons]
          omega
        have hstep : step (o + (l ++ lf :: s).length) o l = o + (l.length + 1) := Nat.min_eq_left (by omega)
        have hrest := ih s.length (by omega) s (o + (l.length + 1))
          (fun m hm => hlen m (List.mem_cons_of_mem l hm)) (fun m hm => hcr m (List.mem_cons_of_mem l hm)) rfl
        rw [← hn, scanTokens_terminated l s hl, if_pos (hlen l List.mem_cons_self), placed,
          splitLines_terminated o l s hl, List.map_cons, kept_cons,
          kept_cons _ _ ((splitLines _ s).map token), ← hrest, token, hdrop, hstep, hlength, Nat.add_assoc o]

theorem kept_sees (keeps : Bytes → Bool) (dir : Directory) (o : ℕ) (files : List ChainFile) (texts : List Bytes)
    (h : Holds dir o files texts) (hlen : ∀ p ∈ linesOf o texts, p.2.length < maxLineBytes)
    (hcr : ∀ t ∈ texts, NoCRLF t) : kept keeps (sees dir files 0) =
      kept keeps ((linesOf o texts).map token) := by
  induction h with
  | nil o => rfl
  | cons o f fs c cs start content size nonempty tail ih =>
    have hwindow : window c f 0 = c := by
      unfold window
      rw [List.drop_zero, size, Nat.sub_zero, List.take_length]
    have hfit : ∀ l ∈ scanLines c, l.length < maxLineBytes := by
      intro l hl
      obtain ⟨q, hq⟩ := scanLines_subset c o l hl
      exact hlen (q, l) (List.mem_append_left _ hq)
    have hfile := kept_placed keeps c o hfit (hcr c List.mem_cons_self)
    have hrest := ih (fun p hp => hlen p (List.mem_append_right _ hp))
      (fun t ht => hcr t (List.mem_cons_of_mem c ht))
    rw [sees, linesOf, List.map_append, kept_append, kept_append, hrest, ← hfile]
    unfold fileTokens
    rw [content]
    simp only [hwindow]
    rw [start, size, Nat.add_zero]

/-! ## The cursor -/

theorem dropCR_length (l : Bytes) : (dropCR l).length ≤ l.length ∧ l.length ≤ (dropCR l).length + 1 := by
  unfold dropCR
  split
  · rw [List.length_dropLast]
    omega
  · omega

/-- The bytes some of the tokens stand for end at a line end; the loop counts at most these bytes, and without
CRLF all of them. `cur` is what it has counted so far, `o` is where the text stands. -/
theorem placedEnd_split (done rest : List Bytes) (t : Bytes) (cur o : ℕ) (hcur : cur ≤ o)
    (h : scanTokens t = done ++ rest) :
    ∃ p s, t = p ++ s ∧ (p = [] ∨ p.getLast? = some lf ∨ s = []) ∧ scanTokens s = rest ∧
      (∀ l ∈ scanLines p, l.length < maxLineBytes) ∧ cur ≤ placedEnd (o + t.length) cur done ∧
      (done ≠ [] → cur < placedEnd (o + t.length) cur done) ∧ placedEnd (o + t.length) cur done ≤ o + p.length ∧
      (cur = o → NoCRLF t → placedEnd (o + t.length) cur done = o + p.length) := by
  induction done generalizing t cur o with
  | nil =>
    refine ⟨[], t, rfl, .inl rfl, h, fun l hl => absurd hl List.not_mem_nil, Nat.le_refl _,
      fun hd => absurd rfl hd, ?_, ?_⟩
    · exact hcur
    · exact fun he _ => he
  | cons raw done ih =>
    cases scanTokens_cases t with
    | inl hnone =>
      rw [hnone] at h
      exact absurd h.symm (List.cons_ne_nil raw _)
    | inr hfirst =>
      obtain ⟨l, p, s, ht, hp, hl, hlen, htoks⟩ := hfirst
      rw [htoks, List.cons_append] at h
      obtain ⟨hraw, hrest⟩ := List.cons.inj h
      have hsize : t.length = p.length + s.length := by rw [ht, List.length_append]
      have hcr := dropCR_length l
      rw [hraw] at hcr
      cases hp with
      | inl hp =>
        have hplen : p.length = l.length + 1 := by rw [hp, List.length_append]; rfl
        have htext : t = l ++ lf :: s := by rw [ht, hp, List.append_assoc, List.singleton_append]
        have hend : o + t.length = o + p.length + s.length := by omega
        have hstep : cur < step (o + t.length) cur raw ∧ step (o + t.length) cur raw ≤ o + p.length := by
          unfold step
          omega
        obtain ⟨p', s', hs, hbound, hrest', hshort, hle, -, hcount, hexact⟩ :=
          ih s (step (o + t.length) cur raw) (o + p.length) hstep.2 hrest
        rw [← hend] at hle hcount hexact
        refine ⟨p ++ p', s', by rw [ht, hs, List.append_assoc], ?_, hrest', ?_, ?_, ?_, ?_, ?_⟩
        · exact line_end_append p p' s s' (.inl (by rw [hp]; simp)) hs hbound
        · rw [hp, List.append_assoc, List.singleton_append, scanLines_terminated l p' hl]
          intro m hm
          cases List.mem_cons.mp hm with
          | inl hm => rwa [hm]
          | inr hm => exact hshort m hm
        · rw [placedEnd]
          omega
        · intro _
          rw [placedEnd]
          omega
        · rw [placedEnd, List.length_append, ← Nat.add_assoc]
          exact hcount
        · intro he hno
          unfold NoCRLF at hno
          rw [htext, closedLines_terminated l s hl] at hno
          have hdrop : raw = l := hraw.symm.trans (if_neg (hno l List.mem_cons_self))
          have hfull : step (o + t.length) cur raw = o + p.length := by
            unfold step
            rw [hdrop]
            omega
          rw [placedEnd, List.length_append, ← Nat.add_assoc]
          exact hexact hfull fun m hm => hno m (List.mem_cons_of_mem l hm)
      | inr hp =>
        rw [hp.2.2] at hrest
        obtain ⟨hdone, hnone⟩ := List.append_eq_nil_iff.mp hrest.symm
        have hpos := List.length_pos_iff.mpr hp.2.1
        have hs : s.length = 0 := by rw [hp.2.2]; rfl
        have hl' : p.length = l.length := by rw [hp.1]
        have hend : placedEnd (o + t.length) cur (raw :: done) = step (o + t.length) cur raw := by
          rw [hdone]; rfl
        rw [hend]
        refine ⟨t, [], by simp, .inr (.inr rfl), by rw [hnone]; rfl, ?_, ?_, ?_, ?_, ?_⟩
        · rw [ht, hp.2.2, List.append_nil, hp.1, scanLines_unterminated l hp.2.1 hl]
          intro m hm
          rwa [List.mem_singleton.mp hm]
        · unfold step
          omega
        · intro _
          unfold step
          omega
        · exact Nat.min_le_right ..
        · intro he _
          unfold step
          omega

/-! ## Where a page starts -/

def Forward.StartsFirst (st : Forward) : Prop := ∀ p, st.collected.head? = some p → st.firstOffset = p.1

theorem scanFile_first (keeps : Bytes → Bool) (count budget fileEnd : ℕ) (toks : List Bytes) (cur : ℕ)
    (st : Forward) (h : st.StartsFirst) : (scanFile keeps count budget fileEnd toks cur st).StartsFirst := by
  induction toks generalizing cur st with
  | nil => exact h
  | cons raw rest ih =>
    rw [scanFile]
    split
    · simp only
      split
      · split
        · exact h
        · apply ih
          intro p hp
          cases hc : st.collected with
          | nil =>
            rw [hc] at hp
            simp only [List.nil_append, List.head?_cons] at hp
            rw [← Option.some.inj hp]
            simp
          | cons q qs =>
            rw [hc] at hp
            simp only [List.cons_append, List.head?_cons] at hp
            rw [← Option.some.inj hp]
            simp only [List.length_cons, Nat.succ_ne_zero, if_false]
            exact h q (by rw [hc]; rfl)
      · exact ih _ _ h
    · exact h

theorem readFiles_first (view : ℕ → Directory) (keeps : Bytes → Bool) (count budget k : ℕ)
    (files : List ChainFile) (physOffset : ℕ) (st : Forward) (h : st.StartsFirst) :
    (readFiles view keeps count budget k files physOffset st).StartsFirst := by
  induction files generalizing k physOffset st with
  | nil => exact h
  | cons cf rest ih =>
    rw [readFiles]
    split
    · split
      · exact ih _ _ _ h
      · exact ih _ _ _ (scanFile_first keeps count budget _ _ _ st h)
    · exact h

/-- A page that is not empty starts at its first line. -/
theorem readForward_first (fc : FileChain) (view : ℕ → Directory) (lower : Bytes → Bytes)
    (budget o count : ℕ) (f : Filter) (p : ℕ × Bytes)
    (hp : (fc.readForward view lower budget o count f).entries.head? = some p) :
    (fc.readForward view lower budget o count f).firstOffset = p.1 := by
  unfold FileChain.readForward Page.entries at *
  split at hp
  · exact absurd hp (by simp)
  · rename_i hread
    rw [if_neg hread]
    simp only at hp ⊢
    split at hp
    · exact absurd hp (by simp)
    · rename_i hsome
      rw [if_neg hsome]
      rw [zip_fst_snd] at hp
      exact readFiles_first view _ count budget 0 _ _ _ (fun q hq => absurd hq (by simp)) p hp

end Minilog.Viewer
