import Minilog.Viewer.Handlers

/-! The steps of a request that read a file. `NewFileChain` fixes the sizes, and each file is addressed by its
path again when it is read: once by `ReadForward`, which then goes on through the open file, once for every
chunk by `ReadBackward`.

When each of these steps finds what `os.Stat` saw, followed by whatever was appended since, or finds nothing
to read, the answer is made of whole records, none twice (`Stores.lines_whole`). -/
namespace Minilog.Viewer
open Lib
set_option autoImplicit false

/-- A step on the file system that reads a file, which has to have at least `needs` bytes for it to read
anything. -/
structure Access where
  step : ℕ
  file : ChainFile
  needs : ℕ
deriving DecidableEq

/-! ## ReadForward -/

section Forward

variable (view : ℕ → Directory) (keeps : Bytes → Bool) (count budget : ℕ)

/-- One round of the loop over the files. -/
def afterFile (k : ℕ) (cf : ChainFile) (physOffset : ℕ) (st : Forward) : Forward :=
  match view k cf.path with
  | none => st
  | some content =>
    scanFile keeps count budget (cf.start + cf.size)
      (scanTokens ((content.drop physOffset).take (cf.size - physOffset))) (cf.start + physOffset) st

theorem readFiles_cons (k : ℕ) (cf : ChainFile) (rest : List ChainFile) (physOffset : ℕ) (st : Forward) :
    readFiles view keeps count budget k (cf :: rest) physOffset st =
      if st.collected.length < count ∧ st.budgetHit = false then
        readFiles view keeps count budget (k + 1) rest 0 (afterFile view keeps count budget k cf physOffset st)
      else st := by
  rw [readFiles, afterFile]
  cases view k cf.path with
  | none => rfl
  | some content => rfl

/-- The steps of `readFiles`. -/
def opens : ℕ → List ChainFile → ℕ → Forward → List Access
  | _, [], _, _ => []
  | k, cf :: rest, physOffset, st =>
    if st.collected.length < count ∧ st.budgetHit = false then
      ⟨k, cf, physOffset + 1⟩ :: opens (k + 1) rest 0 (afterFile view keeps count budget k cf physOffset st)
    else []

end Forward

def FileChain.opens (fc : FileChain) (view : ℕ → Directory) (lower : Bytes → Bytes)
    (budget logicalOffset count : ℕ) (f : Filter) :
    List Access :=
  if fc.empty ∨ count = 0 then []
  else
    Viewer.opens view (f.matches lower) count budget 0 (fc.files.drop (fc.fileAt logicalOffset).1)
    (fc.fileAt logicalOffset).2
      ⟨[], 0, false, 0, logicalOffset⟩

/-! ## ReadBackward -/

section Backward

variable (r : Request) (view : ℕ → Directory) (chunk : ℕ)

/-- The steps of `walkFile`. -/
def Request.chunkReads (cf : ChainFile) : ℕ → ℕ → Backward → List Access
  | 0, _, _ => []
  | fuel + 1, readEnd, w =>
    if 0 < readEnd ∧ w.stop = false ∧ r.full w = false then
      let chunkStart := readEnd - chunk
      ⟨w.reads, cf, readEnd⟩ ::
        match readChunk (view w.reads) cf.path chunkStart readEnd with
        | none => []
        | some buf =>
          let (stop, w) := r.walkChunk cf.start chunkStart buf buf.length buf.length
            { w with reads := w.reads + 1 }
          if w.stop = true ∨ r.full w = true then []
          else if chunkStart = 0 then []
          else chunkReads cf fuel chunkStart (Request.keepTail buf stop w)
    else []

/-- The steps of `walkFiles`. -/
def Request.fileReads : List ChainFile → ℕ → Backward → List Access
  | [], _, _ => []
  | cf :: rest, physOffset, w =>
    if w.stop = false ∧ r.full w = false then
      let w := { w with carry := [], carryTooLong := false }
      r.chunkReads view chunk cf physOffset physOffset w ++
        fileReads rest ((rest.head?.map ChainFile.size).getD 0)
        (r.walkFile view chunk cf physOffset physOffset w)
    else []

end Backward

def FileChain.chunkReads (fc : FileChain) (view : ℕ → Directory) (lower : Bytes → Bytes)
    (budget logicalOffset count : ℕ) (f : Filter) (since : ℤ) : List Access :=
  if fc.empty ∨ count = 0 ∨ logicalOffset = 0 then []
  else if 0 ≤ since ∧ (logicalOffset : ℤ) ≤ since then []
  else
    (⟨f.matches lower, count, budget, since⟩ : Request).fileReads view backwardChunkSize
      (fc.files.take ((fc.backwardPlace logicalOffset).1 + 1)).reverse (fc.backwardPlace logicalOffset).2
      ⟨[], 0, false, [], false, 0⟩

/-! ## The handler -/

/-- The steps of `getLines` that read a file, counted as `view` counts them. -/
def fileSteps (view : ℕ → Directory) (lower : Bytes → Bytes) (budget : ℕ) (sink : Sink) (r : LinesRequest) :
    List Access :=
  let fc := newFileChain view sink
  let reads := fun k => view (k + (candidates sink).length)
  let steps :=
    if fc.empty = true ∨ 0 ≤ r.since ∧ (fc.tailOffset : ℤ) ≤ r.since then []
    else if r.tail then fc.chunkReads reads lower budget fc.tailOffset r.count r.filter r.since
    else
      match r.dir with
      | .backward => fc.chunkReads reads lower budget r.offset r.count r.filter r.since
      | .forward => fc.opens reads lower budget r.clamped r.count r.filter
  steps.map fun a => { a with step := a.step + (candidates sink).length }

/-! ## They read files of the chain -/

theorem opens_mem (view : ℕ → Directory) (keeps : Bytes → Bool) (count budget k : ℕ)
    (files : List ChainFile) (physOffset : ℕ) (st : Forward) :
    ∀ a ∈ opens view keeps count budget k files physOffset st, a.file ∈ files := by
  induction files generalizing k physOffset st with
  | nil => exact fun a ha => absurd ha List.not_mem_nil
  | cons cf rest ih =>
    intro a ha
    rw [opens] at ha
    split at ha
    · cases List.mem_cons.mp ha with
      | inl h =>
        rw [h]
        exact List.mem_cons_self
      | inr h => exact List.mem_cons_of_mem _ (ih _ _ _ a h)
    · exact absurd ha List.not_mem_nil

theorem chunkReads_mem (r : Request) (view : ℕ → Directory) (chunk : ℕ) (cf : ChainFile) (fuel readEnd : ℕ)
    (w : Backward) :
    ∀ a ∈ r.chunkReads view chunk cf fuel readEnd w, a.file = cf := by
  induction fuel generalizing readEnd w with
  | zero => exact fun a ha => absurd ha List.not_mem_nil
  | succ fuel ih =>
    intro a ha
    rw [Request.chunkReads] at ha
    split at ha
    · cases List.mem_cons.mp ha with
      | inl h => rw [h]
      | inr h =>
        split at h
        · exact absurd h List.not_mem_nil
        · simp only at h
          split at h
          · exact absurd h List.not_mem_nil
          · split at h
            · exact absurd h List.not_mem_nil
            · exact ih _ _ a h
    · exact absurd ha List.not_mem_nil

theorem fileReads_mem (r : Request) (view : ℕ → Directory) (chunk : ℕ) (files : List ChainFile)
    (physOffset : ℕ) (w : Backward) :
    ∀ a ∈ r.fileReads view chunk files physOffset w, a.file ∈ files := by
  induction files generalizing physOffset w with
  | nil => exact fun a ha => absurd ha List.not_mem_nil
  | cons cf rest ih =>
    intro a ha
    rw [Request.fileReads] at ha
    split at ha
    · cases List.mem_append.mp ha with
      | inl h =>
        rw [chunkReads_mem r view chunk cf _ _ _ a h]
        exact List.mem_cons_self
      | inr h => exact List.mem_cons_of_mem _ (ih _ _ a h)
    · exact absurd ha List.not_mem_nil

theorem fileSteps_mem (view : ℕ → Directory) (lower : Bytes → Bytes) (budget : ℕ) (sink : Sink)
    (r : LinesRequest) :
    ∀ a ∈ fileSteps view lower budget sink r, a.file ∈ (newFileChain view sink).files ∧
    (candidates sink).length ≤ a.step := by
  have hopens : ∀ (fc : FileChain) (reads : ℕ → Directory) (o : ℕ),
      ∀ a ∈ fc.opens reads lower budget o r.count r.filter, a.file ∈ fc.files := by
    intro fc reads o a ha
    unfold FileChain.opens at ha
    split at ha
    · exact absurd ha List.not_mem_nil
    · exact List.mem_of_mem_drop (opens_mem reads _ _ budget _ _ _ _ a ha)
  have hchunks : ∀ (fc : FileChain) (reads : ℕ → Directory) (o : ℕ),
      ∀ a ∈ fc.chunkReads reads lower budget o r.count r.filter r.since, a.file ∈ fc.files := by
    intro fc reads o a ha
    unfold FileChain.chunkReads at ha
    split at ha
    · exact absurd ha List.not_mem_nil
    · split at ha
      · exact absurd ha List.not_mem_nil
      · exact List.mem_of_mem_take (List.mem_reverse.mp (fileReads_mem _ reads _ _ _ _ a ha))
  intro a ha
  unfold fileSteps at ha
  obtain ⟨b, hb, hab⟩ := List.mem_map.mp ha
  rw [← hab]
  refine ⟨?_, Nat.le_add_left _ _⟩
  simp only at hb ⊢
  split at hb
  · exact absurd hb List.not_mem_nil
  · split at hb
    · exact hchunks _ _ _ b hb
    · split at hb
      · exact hchunks _ _ _ b hb
      · exact hopens _ _ _ b hb

/-! ## Steps that find what was there -/

/-- In the directory `now` the file is as in `dir`, where it has the size of the chain, or has grown. -/
def Sees (dir now : Directory) (cf : ChainFile) : Prop :=
  ∃ c more, dir cf.path = some c ∧ c.length = cf.size ∧ now cf.path = some (c ++ more)

/-- There is no such file any more, or it is too short for the step. -/
def Access.Misses (now : Directory) (a : Access) : Prop := ∀ c, now a.file.path = some c → c.length < a.needs

/-- The step reads the file of `dir`, or nothing. -/
def Access.Finds (dir now : Directory) (a : Access) : Prop := Sees dir now a.file ∨ a.Misses now

section Forward

variable (dir : Directory) (view : ℕ → Directory) (keeps : Bytes → Bool) (count budget : ℕ)

theorem afterFile_finds (k : ℕ) (cf : ChainFile) (physOffset : ℕ) (st : Forward) (hhit : st.budgetHit = false)
    (h : Access.Finds dir (view k) ⟨k, cf, physOffset + 1⟩) :
    ∃ taken, (afterFile view keeps count budget k cf physOffset st).collected = st.collected ++ taken ∧
      taken.Sublist (kept keeps (placed (cf.start + cf.size) (cf.start + physOffset)
        (fileTokens dir cf physOffset))) := by
  have hnothing : afterFile view keeps count budget k cf physOffset st = st →
      ∃ taken, (afterFile view keeps count budget k cf physOffset st).collected = st.collected ++ taken ∧
        taken.Sublist (kept keeps (placed (cf.start + cf.size) (cf.start + physOffset)
          (fileTokens dir cf physOffset))) := by
    intro hsame
    exact ⟨[], by rw [hsame, List.append_nil], List.nil_sublist _⟩
  cases h with
  | inl hsees =>
    obtain ⟨c, more, hdir, hsize, hnow⟩ := hsees
    simp only at hdir hsize hnow
    have hwindow : ((c ++ more).drop physOffset).take (cf.size - physOffset) = window c cf physOffset := by
      rw [window, List.drop_append, List.take_append_of_le_length]
      rw [List.length_drop, hsize]
    have htokens : fileTokens dir cf physOffset = scanTokens (window c cf physOffset) := by
      unfold fileTokens
      rw [hdir]
    obtain ⟨done, rest, taken, st', hrun, -, -, -, htakes, -⟩ :=
      scanFile_tokens keeps count budget (cf.start + cf.size) (scanTokens (window c cf physOffset))
      (cf.start + physOffset) st hhit
    refine ⟨taken, ?_, ?_⟩
    · unfold afterFile
      simp only [hnow, hwindow]
      rw [hrun, htakes.collected]
    · rw [htokens, htakes.split]
      exact List.sublist_append_left taken _
  | inr hmisses =>
    apply hnothing
    unfold afterFile
    cases hnow : view k cf.path with
    | none => rfl
    | some c =>
      have hshort : c.length < physOffset + 1 := hmisses c hnow
      simp only
      rw [List.drop_of_length_le (by omega), List.take_nil]
      rfl

theorem readFiles_finds (k : ℕ) (files : List ChainFile) (physOffset : ℕ) (st : Forward)
    (h : ∀ a ∈ opens view keeps count budget k files physOffset st, a.Finds dir (view a.step)) :
    ∃ taken, (readFiles view keeps count budget k files physOffset st).collected = st.collected ++ taken ∧
      taken.Sublist (kept keeps (sees dir files physOffset)) := by
  induction files generalizing k physOffset st with
  | nil => exact ⟨[], (List.append_nil _).symm, List.nil_sublist _⟩
  | cons cf rest ih =>
    rw [readFiles_cons]
    rw [opens] at h
    by_cases hgo : st.collected.length < count ∧ st.budgetHit = false
    · rw [if_pos hgo] at h
      rw [if_pos hgo]
      obtain ⟨here, hhere, hsub⟩ := afterFile_finds dir view keeps count budget k cf physOffset st hgo.2
        (h _ List.mem_cons_self)
      obtain ⟨later, hlater, hsub'⟩ := ih (k + 1) 0 _ fun a ha => h a (List.mem_cons_of_mem _ ha)
      refine ⟨here ++ later, by rw [hlater, hhere, List.append_assoc], ?_⟩
      rw [sees, kept_append]
      exact hsub.append hsub'
    · rw [if_neg hgo]
      exact ⟨[], (List.append_nil _).symm, List.nil_sublist _⟩

/-- A forward read that finds the files of `dir`, or nothing, returns lines that it would see there. -/
theorem readForward_finds (fc : FileChain) (lower : Bytes → Bytes) (logicalOffset : ℕ) (f : Filter)
    (h : ∀ a ∈ fc.opens view lower budget logicalOffset count f, a.Finds dir (view a.step)) :
    (fc.readForward view lower budget logicalOffset count f).lines.Sublist
    ((seesAt dir fc logicalOffset).map Prod.snd) := by
  unfold FileChain.opens at h
  unfold FileChain.readForward
  by_cases hnone : fc.empty ∨ count = 0
  · rw [if_pos hnone]
    exact List.nil_sublist _
  rw [if_neg hnone] at h
  rw [if_neg hnone]
  simp only
  obtain ⟨taken, hcollected, hsub⟩ := readFiles_finds dir view (f.matches lower) count budget 0 _ _ _ h
  rw [hcollected, List.nil_append]
  split
  · exact List.nil_sublist _
  · exact (hsub.trans List.filter_sublist).map Prod.snd

end Forward

section Backward

variable (dir : Directory) (r : Request) (view : ℕ → Directory) (chunk : ℕ)

theorem collect_grows (lineStart : ℕ) (raw : Bytes) (w : Backward) :
    w.collected <+: (r.collect lineStart raw w).collected := by
  unfold Request.collect
  split
  · split
    · exact List.prefix_refl _
    · exact List.prefix_append _ _
  · exact List.prefix_refl _

theorem take_grows (start : ℕ) (seg : Bytes) (physPos : ℕ) (joinCarry : Bool) (w : Backward) :
    w.collected <+: (r.take start seg physPos joinCarry w).collected := by
  unfold Request.take
  simp only
  split
  · exact List.prefix_refl _
  · split
    · split
      · exact List.prefix_refl _
      · exact collect_grows r _ _ { w with carry := [], carryTooLong := false }
    · exact collect_grows r _ _ w

theorem walkChunk_grows (start chunkStart : ℕ) (buf : Bytes) (i stop : ℕ) (w : Backward) :
    w.collected <+: (r.walkChunk start chunkStart buf i stop w).2.collected := by
  induction i generalizing stop w with
  | zero => exact List.prefix_refl _
  | succ i ih =>
    rw [Request.walkChunk]
    split
    · split
      · exact (take_grows r _ _ _ _ w).trans (ih _ _)
      · exact ih _ _
    · exact List.prefix_refl _

theorem keepTail_collected (buf : Bytes) (stop : ℕ) (w : Backward) :
    (Request.keepTail buf stop w).collected = w.collected := by
  unfold Request.keepTail
  split
  · rfl
  · rfl

theorem walkFile_grows (cf : ChainFile) (fuel readEnd : ℕ) (w : Backward) :
    w.collected <+: (r.walkFile view chunk cf fuel readEnd w).collected := by
  induction fuel generalizing readEnd w with
  | zero => exact List.prefix_refl _
  | succ fuel ih =>
    rw [Request.walkFile]
    split
    · simp only
      split
      · exact List.prefix_refl _
      · rename_i buf hbuf
        have hchunk := walkChunk_grows r cf.start (readEnd - chunk) buf buf.length buf.length
          { w with reads := w.reads + 1 }
        split
        · exact hchunk
        · split
          · exact hchunk.trans (take_grows r _ _ _ _ _)
          · refine hchunk.trans (List.IsPrefix.trans ?_ (ih _ _))
            rw [keepTail_collected]
    · exact List.prefix_refl _

theorem readChunk_sees (now : Directory) (cf : ChainFile) (start stop : ℕ) (h : Sees dir now cf)
    (hstop : stop ≤ cf.size) :
    readChunk now cf.path start stop = readChunk dir cf.path start stop := by
  obtain ⟨c, more, hdir, hsize, hnow⟩ := h
  have hbytes : ((c ++ more).drop start).take (stop - start) = (c.drop start).take (stop - start) := by
    rw [List.drop_append, List.take_append_of_le_length]
    rw [List.length_drop]
    omega
  unfold readChunk
  rw [hnow, hdir]
  simp only
  rw [if_neg (by rw [List.length_append]; omega), if_neg (by omega), hbytes]

theorem readChunk_misses (now : Directory) (a : Access) (start : ℕ) (h : a.Misses now) :
    readChunk now a.file.path start a.needs = none := by
  unfold readChunk
  cases hnow : now a.file.path with
  | none => rfl
  | some c => exact if_pos (h c hnow)

/-- A chunk that is not found ends the file early: what has been collected is what the whole walk collects
first. -/
theorem walkFile_finds (cf : ChainFile) (fuel readEnd : ℕ) (w : Backward) (hend : readEnd ≤ cf.size)
    (h : ∀ a ∈ r.chunkReads view chunk cf fuel readEnd w, a.Finds dir (view a.step)) :
    (r.walkFile view chunk cf fuel readEnd w).collected <+:
    (r.walkFile (fun _ => dir) chunk cf fuel readEnd w).collected := by
  induction fuel generalizing readEnd w with
  | zero => exact List.prefix_refl _
  | succ fuel ih =>
    by_cases hgo : 0 < readEnd ∧ w.stop = false ∧ r.full w = false
    · rw [Request.chunkReads, if_pos hgo] at h
      have hrest := fun a ha => h a (List.mem_cons_of_mem _ ha)
      cases h _ List.mem_cons_self with
      | inr hmisses =>
        have hnone := readChunk_misses (view w.reads) ⟨w.reads, cf, readEnd⟩ (readEnd - chunk) hmisses
        have hstays : (r.walkFile view chunk cf (fuel + 1) readEnd w).collected = w.collected := by
          rw [Request.walkFile, if_pos hgo]
          simp only [hnone]
        rw [hstays]
        exact walkFile_grows r _ chunk cf _ _ w
      | inl hsees =>
        have hchunk := readChunk_sees dir (view w.reads) cf (readEnd - chunk) readEnd hsees hend
        rw [Request.walkFile, Request.walkFile, if_pos hgo, if_pos hgo]
        simp only [hchunk] at hrest ⊢
        cases hbuf : readChunk dir cf.path (readEnd - chunk) readEnd with
        | none => exact List.prefix_refl _
        | some buf =>
          rw [hbuf] at hrest
          simp only at hrest ⊢
          split
          · exact List.prefix_refl _
          · split
            · exact List.prefix_refl _
            · rename_i hlive hstart
              rw [if_neg hlive, if_neg hstart] at hrest
              exact ih _ _ (by omega) hrest
    · rw [Request.walkFile, Request.walkFile, if_neg hgo, if_neg hgo]

variable (hchunk : 1 ≤ chunk) (hsize : chunk ≤ maxLineBytes)

include hchunk hsize in
/-- What a walk takes from the file `cf`, up to its byte `n`. -/
theorem walkFile_lines (cf : ChainFile) (c : Bytes) (hc : dir cf.path = some c) (hcf : cf.size = c.length)
    (n : ℕ) (hpos : 0 < n) (hn : n ≤ c.length) (w : Backward) (hgo : w.stop = false)
    (h : ∀ a ∈ r.chunkReads view chunk cf n n { w with carry := [], carryTooLong := false },
      a.Finds dir (view a.step)) :
    ∃ taken, (r.walkFile view chunk cf n n { w with carry := [], carryTooLong := false }).collected =
      w.collected ++ taken ∧
      taken.Sublist ((splitLines cf.start (c.take n)).reverse.filterMap (selected r.keeps r.since)) := by
  have hdrop : (c.take n).drop n = [] := List.drop_of_length_le (by rw [List.length_take]; omega)
  have hseen : w.acc = r.seen w.acc cf.start (c.take n) n := by
    rw [Request.seen, hdrop]
    rfl
  have hcarry : r.Active w.acc → Carries { w with carry := [], carryTooLong := false }
      (firstLine ((c.take n).drop n)) := by
    intro _
    rw [hdrop]
    exact .inl ⟨rfl, rfl⟩
  have hwhole := r.walkFile_spec dir chunk hchunk hsize cf c hc n hn w.acc n n
    { w with carry := [], carryTooLong := false } (Nat.le_refl n) hpos (Nat.le_refl n) hseen hcarry
  have hnewest : (splitLines cf.start (c.take n)).reverse.Pairwise fun p q => q.1 ≤ p.1 := by
    apply List.pairwise_reverse.mpr
    exact (splitLines_pairwise cf.start (c.take n)).imp fun hpq => Nat.le_of_add_right_le hpq
  have hcollected : (r.walkFile (fun _ => dir) chunk cf n n
      { w with carry := [], carryTooLong := false }).collected = w.collected ++
      greedyFrom weight r.count r.maxResponseBytes w.collected.length w.collectedBytes
        ((splitLines cf.start (c.take n)).reverse.filterMap (selected r.keeps r.since)) :=
    (congrArg Acc.collected hwhole).trans (foldl_visit_collected r _ hnewest w.acc hgo)
  have hfound := walkFile_finds dir r view chunk cf n n { w with carry := [], carryTooLong := false }
    (by omega) h
  obtain ⟨taken, htaken⟩ := walkFile_grows r view chunk cf n n { w with carry := [], carryTooLong := false }
  rw [hcollected, ← htaken, List.prefix_append_right_inj] at hfound
  exact ⟨taken, htaken.symm, hfound.sublist.trans
    (greedyFrom_initial weight r.count r.maxResponseBytes _ _ _).sublist⟩

include hchunk hsize in
/-- The files `pre` and the file `cf` up to its byte `n`: the walk takes lines of these, newest first. -/
theorem walkFiles_finds (pre : List ChainFile) (bs : List Bytes) (hpre : Holds dir 0 pre bs)
    (cf : ChainFile) (c : Bytes) (hc : dir cf.path = some c) (hcf : cf.size = c.length) (n : ℕ)
    (hpos : 0 < n) (hn : n ≤ c.length) (w : Backward)
    (h : ∀ a ∈ r.fileReads view chunk (cf :: pre.reverse) n w, a.Finds dir (view a.step)) :
    ∃ taken, (r.walkFiles view chunk (cf :: pre.reverse) n w).collected = w.collected ++ taken ∧
      taken.Sublist ((linesOf 0 bs ++ splitLines cf.start (c.take n)).reverse.filterMap
        (selected r.keeps r.since)) := by
  induction hlen : pre.length generalizing pre bs cf c n w with
  | zero =>
    have hnil : pre = [] := List.length_eq_zero_iff.mp hlen
    subst hnil
    cases hpre
    rw [Request.fileReads] at h
    rw [List.reverse_nil, Request.walkFiles]
    by_cases hgo : w.stop = false ∧ r.full w = false
    · rw [if_pos hgo] at h
      rw [if_pos hgo]
      exact walkFile_lines dir r view chunk hchunk hsize cf c hc hcf n hpos hn w hgo.1 fun a ha =>
        h a (List.mem_append_left _ ha)
    · rw [if_neg hgo]
      exact ⟨[], (List.append_nil _).symm, List.nil_sublist _⟩
  | succ k ih =>
    have hne : pre ≠ [] := List.ne_nil_of_length_eq_add_one hlen
    obtain ⟨front, g, rfl⟩ : ∃ front g, pre = front ++ [g] :=
      ⟨pre.dropLast, pre.getLast hne, (List.dropLast_append_getLast hne).symm⟩
    obtain ⟨ds, e, rfl, hfront, hstart, he, hes, hene⟩ := hpre.snoc
    have hk : front.length = k := by
      rw [List.length_append, List.length_singleton] at hlen
      omega
    have hlines : (linesOf 0 (ds ++ [e]) ++ splitLines cf.start (c.take n)).reverse =
        (splitLines cf.start (c.take n)).reverse ++
        (linesOf 0 ds ++ splitLines g.start (e.take e.length)).reverse := by
      rw [linesOf_snoc, ← hstart, List.take_length]
      exact List.reverse_append
    rw [List.reverse_append, List.reverse_singleton, List.singleton_append] at h ⊢
    rw [Request.fileReads] at h
    rw [Request.walkFiles]
    by_cases hgo : w.stop = false ∧ r.full w = false
    · rw [if_pos hgo] at h
      rw [if_pos hgo]
      simp only [List.head?_cons, Option.map_some, Option.getD_some] at h ⊢
      rw [hes] at h ⊢
      obtain ⟨here, hhere, hsub⟩ := walkFile_lines dir r view chunk hchunk hsize cf c hc hcf n hpos hn w hgo.1
        fun a ha => h a (List.mem_append_left _ ha)
      obtain ⟨older, holder, hsub'⟩ := ih front ds hfront g e he hes e.length (List.length_pos_iff.mpr hene)
        (Nat.le_refl _) _ (fun a ha => h a (List.mem_append_right _ ha)) hk
      refine ⟨here ++ older, by rw [holder, hhere, List.append_assoc], ?_⟩
      rw [hlines, List.filterMap_append]
      exact hsub.append hsub'
    · rw [if_neg hgo]
      exact ⟨[], (List.append_nil _).symm, List.nil_sublist _⟩

/-- A backward read that finds the files of `dir`, or nothing, returns lines of the cut chain that it
selects. -/
theorem readBackward_finds (fc : FileChain) (texts : List Bytes) (hfc : Holds dir 0 fc.files texts)
    (htotal : fc.total = texts.flatten.length) (lower : Bytes → Bytes) (budget logicalOffset count : ℕ)
    (f : Filter) (since : ℤ) (h : ∀ a ∈ fc.chunkReads view lower budget logicalOffset count f since,
      a.Finds dir (view a.step)) :
    (fc.readBackward view lower budget logicalOffset count f since).lines.Sublist
      ((wantedBackward (f.matches lower) since (linesOf 0 (cutAt logicalOffset texts))).map Prod.snd) := by
  unfold FileChain.chunkReads at h
  unfold FileChain.readBackward FileChain.readBackwardBy
  by_cases hnone : fc.empty ∨ count = 0 ∨ logicalOffset = 0
  · rw [if_pos hnone]
    exact List.nil_sublist _
  rw [if_neg hnone] at h
  rw [if_neg hnone]
  by_cases hsince : 0 ≤ since ∧ (logicalOffset : ℤ) ≤ since
  · rw [if_pos hsince]
    exact List.nil_sublist _
  rw [if_neg hsince] at h
  rw [if_neg hsince]
  have hfiles : fc.files ≠ [] := fun e => hnone (.inl (by rw [FileChain.empty, e]; rfl))
  obtain ⟨pre, cf, later, bs, c, n, hpf, hpre, hstart, hc, hpos, hn, hcut, hplace⟩ :=
    backwardPlace_spec dir fc texts hfc htotal hfiles logicalOffset (by omega)
  have hcf : cf.size = c.length := by
    obtain ⟨c', hc', hsize⟩ := hfc.mem _ _ _ _ cf (by rw [hpf]; simp)
    rw [hc] at hc'
    rw [Option.some.inj hc', hsize]
  have hrev : (fc.files.take (pre.length + 1)).reverse = cf :: pre.reverse := by
    rw [hpf, List.take_append, List.take_of_length_le (by omega), Nat.add_sub_cancel_left, List.take_succ_cons,
      List.take_zero, List.reverse_append]
    rfl
  simp only [hplace, hrev] at h ⊢
  obtain ⟨taken, htaken, hsub⟩ :=
    walkFiles_finds dir ⟨f.matches lower, count, budget, since⟩ view backwardChunkSize (by decide)
    (by decide) pre bs hpre cf c hc hcf n hpos hn _ h
  rw [htaken, List.nil_append]
  rw [hstart, ← Nat.zero_add bs.flatten.length, ← linesOf_snoc, ← hcut, List.filterMap_reverse,
    ← wantedBackward_eq] at hsub
  have hpage : (taken.take count).reverse.Sublist
      (wantedBackward (f.matches lower) since (linesOf 0 (cutAt logicalOffset texts))) := by
    rw [← List.reverse_sublist, List.reverse_reverse]
    exact (List.take_sublist count taken).trans hsub
  split
  · exact List.nil_sublist _
  · exact hpage.map Prod.snd

end Backward

/-! ## The sizes -/

theorem statAll_congr (view view' : ℕ → Directory) (k o : ℕ) (paths : List Bytes)
    (h : ∀ i path, paths[i]? = some path → view (k + i) path = view' (k + i) path) :
    statAll view k o paths = statAll view' k o paths := by
  induction paths generalizing k o with
  | nil => rfl
  | cons path rest ih =>
    have hrest : ∀ o, statAll view (k + 1) o rest = statAll view' (k + 1) o rest := by
      intro o
      apply ih
      intro i p hp
      have := h (i + 1) p hp
      rwa [Nat.add_comm i 1, ← Nat.add_assoc] at this
    have hpath : view k path = view' k path := h 0 path rfl
    unfold statAll
    rw [hpath]
    simp only [hrest]

theorem newFileChain_congr (dir : Directory) (view : ℕ → Directory) (sink : Sink)
    (hstat : ∀ i path, (candidates sink)[i]? = some path → view i path = dir path) :
    newFileChain view sink = newFileChain (fun _ => dir) sink := by
  apply statAll_congr
  intro i path hpath
  rw [Nat.zero_add]
  exact hstat i path hpath

/-! ## The answer -/

theorem lineStart_records (gs : List (List Record)) (o : ℕ) (hstart : LineStart o (gs.map recordsText)) :
    (∃ before behind, gs.flatten = before ++ behind ∧ o = (recordsText before).length) ∨
    (recordsText gs.flatten).length ≤ o := by
  induction gs generalizing o with
  | nil => exact .inr (Nat.zero_le o)
  | cons g gs ih =>
    rw [List.map_cons, LineStart] at hstart
    by_cases hin : o < (recordsText g).length
    · rw [if_pos hin] at hstart
      left
      have hcut : (recordsText g).take o = [] ∨ ((recordsText g).take o).getLast? = some lf ∨
          (recordsText g).drop o = [] := by
        cases hstart with
        | inl h => exact .inl (by rw [h]; rfl)
        | inr h => exact .inr (.inl h)
      obtain ⟨g₁, g₂, hg, htake, -⟩ := recordsText_cut g _ _ (List.take_append_drop o _).symm hcut
      refine ⟨g₁, g₂ ++ gs.flatten, by rw [List.flatten_cons, hg, List.append_assoc], ?_⟩
      rw [← htake, List.length_take, Nat.min_eq_left (Nat.le_of_lt hin)]
    · rw [if_neg hin] at hstart
      cases ih (o - (recordsText g).length) hstart with
      | inl h =>
        obtain ⟨before, behind, hsplit, ho⟩ := h
        refine .inl ⟨g ++ before, behind, by rw [List.flatten_cons, hsplit, List.append_assoc], ?_⟩
        rw [recordsText_append, List.length_append]
        omega
      | inr h =>
        right
        rw [List.flatten_cons, recordsText_append, List.length_append]
        omega

section Answers

variable (dir : Directory) (sink : Sink) (rs : List Record) (h : Stores dir sink rs)
variable (view : ℕ → Directory) (lower : Bytes → Bytes) (budget : ℕ) (r : LinesRequest)

include h in
theorem Stores.forward_whole (o : ℕ) (hstart : LineStart o (chainTexts dir sink))
    (hfinds : ∀ a ∈ (newFileChain (fun _ => dir) sink).opens view lower budget o r.count r.filter,
      a.Finds dir (view a.step)) :
    ∃ ps : List Record, ps.Sublist rs ∧
      ((newFileChain (fun _ => dir) sink).readForward view lower budget o r.count r.filter).lines =
        ps.map Record.text := by
  have hsub := readForward_finds dir view r.count budget _ lower o r.filter hfinds
  have hstores := h
  obtain ⟨gs, htexts, hgs⟩ := h
  rw [htexts] at hstart
  cases lineStart_records gs o hstart with
  | inl hsplit =>
    obtain ⟨before, behind, hrs, ho⟩ := hsplit
    rw [hgs] at hrs
    rw [ho, hstores.seesAt_records dir sink rs before behind hrs] at hsub
    obtain ⟨ps, hps, hlines⟩ := List.sublist_map_iff.mp hsub
    rw [ho, hlines]
    refine ⟨ps, hps.trans ?_, rfl⟩
    rw [hrs]
    exact List.sublist_append_right before behind
  | inr hend =>
    have htotal := hstores.total dir sink rs
    rw [hgs] at hend
    rw [seesAt_end dir _ _ (newFileChain_holds dir sink) o (by omega)] at hsub
    exact ⟨[], List.nil_sublist _, List.sublist_nil.mp hsub⟩

include h in
theorem Stores.backward_whole (o : ℕ) (hstart : LineStart o (chainTexts dir sink))
    (hfinds : ∀ a ∈ (newFileChain (fun _ => dir) sink).chunkReads view lower budget o r.count r.filter r.since,
      a.Finds dir (view a.step)) :
    ∃ ps : List Record, ps.Sublist rs ∧
      ((newFileChain (fun _ => dir) sink).readBackward view lower budget o r.count r.filter r.since).lines =
        ps.map Record.text := by
  have hfront : filled (linesOf 0 (cutAt o (chainTexts dir sink))) = (located 0 rs).filter fun p =>
      decide (p.1 < 0 + o) := by
    rw [filled_cutAt 0 o _ hstart, h.filled_lines dir sink rs]
  have hplain : ∀ p ∈ filled (linesOf 0 (cutAt o (chainTexts dir sink))), Plain p.2 := by
    rw [hfront]
    exact fun p hp => located_plain 0 rs p (List.mem_filter.mp hp).1
  have hsub := readBackward_finds dir view _ _ (newFileChain_holds dir sink)
    (newFileChain_total dir sink) lower budget o r.count r.filter r.since hfinds
  rw [wantedBackward_plain _ r.since _ hplain, kept_eq_filled, hfront] at hsub
  have htexts := hsub.trans ((List.filter_sublist.trans (List.filter_sublist.trans List.filter_sublist)).map
    Prod.snd)
  rw [located_texts] at htexts
  exact List.sublist_map_iff.mp htexts

include h in
/-- The files are stat'ed as they are in `dir`, and every step finds the file there or nothing: an answer that
starts at a line start is made of whole records, none twice. -/
theorem Stores.lines_whole (hstat : ∀ i path, (candidates sink)[i]? = some path → view i path = dir path)
    (hfinds : ∀ a ∈ fileSteps view lower budget sink r, a.Finds dir (view a.step))
    (hstart : r.tail = true ∨ LineStart r.startOffset (chainTexts dir sink)) :
    ∃ ps : List Record, ps.Sublist rs ∧ (getLines view lower budget sink r).lines = ps.map Record.text := by
  unfold fileSteps at hfinds
  unfold getLines
  simp only [List.forall_mem_map, newFileChain_congr dir view sink hstat] at hfinds ⊢
  by_cases hnone : (newFileChain (fun _ => dir) sink).empty = true ∨
      0 ≤ r.since ∧ ((newFileChain (fun _ => dir) sink).tailOffset : ℤ) ≤ r.since
  · rw [if_pos hnone]
    exact ⟨[], List.nil_sublist _, rfl⟩
  rw [if_neg hnone] at hfinds
  rw [if_neg hnone]
  by_cases htail : r.tail = true
  · rw [if_pos htail] at hfinds
    rw [if_pos htail]
    apply h.backward_whole dir sink rs _ lower budget r _ _ hfinds
    rw [FileChain.tailOffset, newFileChain_total]
    exact lineStart_end _
  · have hstart := hstart.resolve_left htail
    rw [if_neg htail] at hfinds
    rw [if_neg htail]
    unfold LinesRequest.startOffset at hstart
    cases hdir : r.dir with
    | backward =>
      rw [hdir] at hstart hfinds
      exact h.backward_whole dir sink rs _ lower budget r _ hstart hfinds
    | forward =>
      rw [hdir] at hstart hfinds
      exact h.forward_whole dir sink rs _ lower budget r _ hstart hfinds

end Answers

end Minilog.Viewer
