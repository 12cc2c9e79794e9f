import Minilog.Viewer.Accesses

/-! A request while the server writes: between any two of its steps on the file system, and while a step reads
the file it has opened, the server may append records and rotate. What `os.Stat` reports for the files, one
after another, is a directory in which every generation occurs once, whatever happens in between
(`Race.snapshot_stores`). The reads are right when each opens the file its `os.Stat` saw, or finds nothing to
read: then the answer is made of whole records, none twice (`getLines_race`). -/
namespace Minilog.Viewer
open Lib
set_option autoImplicit false

inductive ServerAction
  | append (r : Record)
  | rotate

def Log.act {n : ℕ} (log : Log n) : ServerAction → Log n
  | .append r => log.append r
  | .rotate => log.rotate

/-- The records that reach the file opened as the active one; a rotation moves it, and later records go to a
new file. -/
def written : List ServerAction → List Record
  | .append r :: actions => r :: written actions
  | _ => []

/-- What is read through the files opened now, the server doing `actions` until the last read. -/
def Log.opened {n : ℕ} (log : Log n) (sink : Sink) (actions : List ServerAction) : Directory := fun path =>
  if path = sink.path then some (recordsText (log.active ++ written actions)) else log.directory sink path

/-- What the server does: `between k` right before the request's step `k`, and `during k` while that step
reads the file it has opened. -/
structure Race (n : ℕ) where
  start : Log n
  between : ℕ → List ServerAction
  during : ℕ → List ServerAction

namespace Race

variable {n : ℕ} (w : Race n) (sink : Sink)

/-- The log when the request makes step `k`. -/
def log : ℕ → Log n
  | 0 => (w.between 0).foldl Log.act w.start
  | k + 1 => (w.during k ++ w.between (k + 1)).foldl Log.act (log k)

/-- The first steps are the calls of `os.Stat`, the others open a file and read it. -/
def view (k : ℕ) : Directory :=
  if k < (candidates sink).length then (w.log k).directory sink else (w.log k).opened sink (w.during k)

/-- The step that is the `os.Stat` of a file of the chain. -/
def statStep (path : Bytes) : ℕ := (candidates sink).idxOf path

/-- The files as `os.Stat` saw them. -/
def snapshot : Directory := fun path => (w.log (statStep sink path)).directory sink path

/-- No rotation between the `os.Stat` of the file and the step that opens it. -/
def Settled (a : Access) : Prop :=
  ∀ k, statStep sink a.file.path ≤ k → k < a.step → .rotate ∉ w.during k ++ w.between (k + 1)

end Race

/-! ## Logs that grow -/

section Logs

variable {n : ℕ}

/-- Without rotations only the active file changes, and it grows. -/
theorem act_grows (log : Log n) (actions : List ServerAction) (h : .rotate ∉ actions) :
    (actions.foldl Log.act log).archived = log.archived ∧
    log.active <+: (actions.foldl Log.act log).active := by
  induction actions generalizing log with
  | nil => exact ⟨rfl, List.prefix_refl _⟩
  | cons a actions ih =>
    obtain ⟨harch, hactive⟩ := ih (log.act a) fun hmem => h (List.mem_cons_of_mem _ hmem)
    cases a with
    | append r => exact ⟨harch, (List.prefix_append _ _).trans hactive⟩
    | rotate => exact absurd List.mem_cons_self h

/-- The records of the generations behind the first `j`, and those dropped. -/
def Log.behind (log : Log n) (j : ℕ) : List Record := log.dropped ++ (log.archived.drop j).reverse.flatten

/-- They are moved further back and never lost. -/
theorem act_behind (log : Log n) (j : ℕ) (hj : j ≤ n) (actions : List ServerAction) :
    log.behind j <+: (actions.foldl Log.act log).behind j := by
  induction actions generalizing log with
  | nil => exact List.prefix_refl _
  | cons a actions ih =>
    refine List.IsPrefix.trans ?_ (ih (log.act a))
    cases a with
    | append r => exact List.prefix_refl _
    | rotate =>
      have hcut : (log.active :: log.archived).drop j =
          ((log.active :: log.archived).take n).drop j ++ (log.active :: log.archived).drop n := by
        have h := congrArg (List.drop j) (List.take_append_drop n (log.active :: log.archived)).symm
        by_cases hlen : n ≤ (log.active :: log.archived).length
        · rwa [List.drop_append_of_le_length (by rw [List.length_take, Nat.min_eq_left hlen]; exact hj)] at h
        · rw [List.take_of_length_le (by omega),
            List.drop_eq_nil_of_le (by omega : (log.active :: log.archived).length ≤ n), List.append_nil]
      have hrotated : (log.act .rotate).behind j = log.dropped ++
          ((log.active :: log.archived).drop j).reverse.flatten := by
        rw [hcut, List.reverse_append, List.flatten_append, ← List.append_assoc]
        rfl
      rw [hrotated, Log.behind, List.prefix_append_right_inj]
      cases j with
      | zero =>
        rw [List.drop_zero, List.drop_zero, List.reverse_cons, List.flatten_append]
        exact List.prefix_append _ _
      | succ j =>
        rw [List.drop_succ_cons, ← List.tail_drop]
        cases log.archived.drop j with
        | nil => exact List.prefix_refl _
        | cons g older =>
          rw [List.tail_cons, List.reverse_cons, List.flatten_append]
          exact List.prefix_append _ _

end Logs

/-! ## The snapshot -/

theorem candidates_length (sink : Sink) : (candidates sink).length = sink.maxFiles + 1 := by
  have hgen : ∀ stem ending m, (generations stem ending m).length = m := by
    intro stem ending m
    induction m with
    | zero => rfl
    | succ m ih => rw [generations, List.length_cons, ih]
  rw [candidates, List.length_append, hgen]
  rfl

theorem candidates_nodup (sink : Sink) : (candidates sink).Nodup := by
  have hgen : ∀ m, (generations (trimSuffix sink.path (ext sink.path)) (ext sink.path) m).Nodup := by
    intro m
    induction m with
    | zero => exact List.nodup_nil
    | succ m ih =>
      refine List.nodup_cons.mpr ⟨?_, ih⟩
      intro hmem
      obtain ⟨i, -, hi, hpath⟩ := (mem_generations_iff _ _ _ m).mp hmem
      have := Log.generationPath_injective sink (m + 1) i hpath
      omega
  refine List.nodup_append.mpr ⟨hgen _, List.nodup_singleton _, ?_⟩
  intro path hpath q hq
  obtain ⟨i, -, -, hi⟩ := (mem_generations_iff _ _ _ _).mp hpath
  rw [List.mem_singleton.mp hq, hi]
  exact Log.generationPath_ne sink i

theorem candidates_generation (sink : Sink) (j : ℕ) (hj : j < sink.maxFiles) :
    (candidates sink)[sink.maxFiles - (j + 1)]? = some (Log.generationPath sink (j + 1)) := by
  have hgen : ∀ m, j < m →
      (generations (trimSuffix sink.path (ext sink.path)) (ext sink.path) m)[m - (j + 1)]? =
        some (Log.generationPath sink (j + 1)) := by
    intro m hm
    induction m with
    | zero => omega
    | succ m ih =>
      rw [generations]
      by_cases hlast : j = m
      · rw [hlast, Nat.sub_self]
        rfl
      · have hidx : m + 1 - (j + 1) = m - (j + 1) + 1 := by omega
        rw [hidx, List.getElem?_cons_succ]
        exact ih (by omega)
  have hlen := candidates_length sink
  rw [candidates, List.length_append, List.length_singleton] at hlen
  rw [candidates, List.getElem?_append_left (by omega)]
  exact hgen _ hj

theorem candidates_active (sink : Sink) : (candidates sink)[sink.maxFiles]? = some sink.path := by
  have hlen := candidates_length sink
  rw [candidates, List.length_append, List.length_singleton] at hlen
  have hidx : sink.maxFiles = (generations (trimSuffix sink.path (ext sink.path))
      (ext sink.path) sink.maxFiles).length := by omega
  rw [candidates, List.getElem?_append_right (by omega), ← hidx, Nat.sub_self]
  rfl

namespace Race

variable {n : ℕ} (w : Race n) (sink : Sink)

theorem snapshot_eq (i : ℕ) (path : Bytes) (h : (candidates sink)[i]? = some path) :
    (w.log i).directory sink path = w.snapshot sink path := by
  obtain ⟨hi, hpath⟩ := List.getElem?_eq_some_iff.mp h
  have hstep : statStep sink path = i := by
    rw [← hpath]
    exact (candidates_nodup sink).idxOf_getElem i hi
  rw [snapshot, hstep]

theorem log_behind (j : ℕ) (hj : j ≤ n) (k : ℕ) : (w.log k).behind j <+: (w.log (k + 1)).behind j :=
  act_behind (w.log k) j hj (w.during k ++ w.between (k + 1))

/-- The generations from `j` down, each seen after the one before it: what was seen of older ones is still
behind them. -/
theorem snapshot_generations (hn : n = sink.maxFiles) (j : ℕ) (hj : j ≤ n) (older : List Record)
    (holder : older.Sublist ((w.log (n - j)).behind j)) :
    ∃ gs : List (List Record),
      (generations (trimSuffix sink.path (ext sink.path)) (ext sink.path) j).filterMap (w.snapshot sink) =
        gs.map recordsText ∧
      (older ++ gs.flatten).Sublist ((w.log n).behind 0) := by
  induction j generalizing older with
  | zero => exact ⟨[], rfl, by simpa using holder⟩
  | succ j ih =>
    have hpath : w.snapshot sink (Log.generationPath sink (j + 1)) =
        ((w.log (n - (j + 1))).archived[j]?).map recordsText := by
      rw [← w.snapshot_eq sink (n - (j + 1)) _ (hn ▸ candidates_generation sink j (by omega)),
        Log.directory_generation]
    have hname : generations (trimSuffix sink.path (ext sink.path)) (ext sink.path) (j + 1) =
        Log.generationPath sink (j + 1) :: generations (trimSuffix sink.path (ext sink.path))
        (ext sink.path) j := rfl
    have hnext : n - j = n - (j + 1) + 1 := by omega
    rw [hname, List.filterMap_cons, hpath]
    cases hg : (w.log (n - (j + 1))).archived[j]? with
    | none =>
      apply ih (by omega) older
      rw [hnext]
      refine (holder.trans ?_).trans (w.log_behind j (by omega) (n - (j + 1))).sublist
      rw [Log.behind, Log.behind, List.drop_eq_nil_of_le (by have := List.getElem?_eq_none_iff.mp hg; omega),
        List.drop_eq_nil_of_le (List.getElem?_eq_none_iff.mp hg)]
    | some g =>
      have hseen : (older ++ g).Sublist ((w.log (n - j)).behind j) := by
        rw [hnext]
        refine List.Sublist.trans ?_ (w.log_behind j (by omega) (n - (j + 1))).sublist
        obtain ⟨hlt, hget⟩ := List.getElem?_eq_some_iff.mp hg
        have hsplit : (w.log (n - (j + 1))).behind j = (w.log (n - (j + 1))).behind (j + 1) ++ g := by
          rw [Log.behind, Log.behind, List.drop_eq_getElem_cons hlt, hget, List.reverse_cons,
            List.flatten_append, List.append_assoc, List.flatten_singleton]
        rw [hsplit]
        exact holder.append (List.Sublist.refl g)
      obtain ⟨gs, hgs, hsub⟩ := ih (by omega) (older ++ g) hseen
      refine ⟨g :: gs, ?_, ?_⟩
      · simp only [Option.map_some, hgs, List.map_cons]
      · rwa [List.flatten_cons, ← List.append_assoc]

/-- The files as they were seen hold records of the log, each at most once. -/
theorem snapshot_stores (hn : n = sink.maxFiles) : ∃ rs, Stores (w.snapshot sink) sink rs ∧
    rs.Sublist (w.log n).history := by
  obtain ⟨gs, hgs, hsub⟩ := w.snapshot_generations sink hn n (Nat.le_refl n) [] (List.nil_sublist _)
  have hactive : w.snapshot sink sink.path = some (recordsText (w.log n).active) := by
    rw [← w.snapshot_eq sink n _ (hn ▸ candidates_active sink), Log.directory, if_pos rfl]
  refine ⟨(gs ++ [(w.log n).active]).flatten, ?_, ?_⟩
  · apply stores_of_groups
    rw [candidates, List.filterMap_append, ← hn, hgs, List.filterMap_cons_some hactive, List.filterMap_nil,
      List.map_append]
    rfl
  · have hhistory : (w.log n).history = (w.log n).behind 0 ++ (w.log n).active := by
      rw [Log.history, Log.records, Log.behind, List.drop_zero, List.reverse_cons, List.flatten_append,
        List.append_assoc, List.flatten_singleton]
    rw [hhistory, List.flatten_append, List.flatten_singleton]
    exact hsub.append (List.Sublist.refl _)

/-! ## Reads without a rotation since -/

theorem log_grows (i d : ℕ) (h : ∀ k, i ≤ k → k < i + d → .rotate ∉ w.during k ++ w.between (k + 1)) :
    (w.log (i + d)).archived = (w.log i).archived ∧ (w.log i).active <+: (w.log (i + d)).active := by
  induction d with
  | zero => exact ⟨rfl, List.prefix_refl _⟩
  | succ d ih =>
    obtain ⟨harch, hactive⟩ := ih fun k hi hk => h k hi (by omega)
    obtain ⟨harch', hactive'⟩ := act_grows (w.log (i + d)) (w.during (i + d) ++ w.between (i + d + 1))
      (h (i + d) (by omega) (by omega))
    exact ⟨harch'.trans harch, hactive.trans hactive'⟩

/-- Every path leads to the same file, and the active one may have grown. -/
theorem opened_grows (i d : ℕ) (h : ∀ k, i ≤ k → k < i + d → .rotate ∉ w.during k ++ w.between (k + 1))
    (actions : List ServerAction) (path c : Bytes) (hc : (w.log i).directory sink path = some c) :
    ∃ more, (w.log (i + d)).opened sink actions path = some (c ++ more) := by
  obtain ⟨harch, added, hactive⟩ := w.log_grows i d h
  unfold Log.opened
  unfold Log.directory at hc ⊢
  by_cases hpath : path = sink.path
  · rw [if_pos hpath] at hc ⊢
    refine ⟨recordsText (added ++ written actions), ?_⟩
    rw [← hactive, List.append_assoc, recordsText_append, Option.some.inj hc]
  · rw [if_neg hpath] at hc ⊢
    refine ⟨[], ?_⟩
    rw [if_neg hpath, harch, List.append_nil]
    exact hc

theorem Settled.sees (a : Access) (h : w.Settled sink a) (hlate : (candidates sink).length ≤ a.step)
    (hmem : a.file ∈ (newFileChain (fun _ => w.snapshot sink) sink).files) :
    Sees (w.snapshot sink) (w.view sink a.step) a.file := by
  obtain ⟨c, hc, hsize⟩ := (newFileChain_holds (w.snapshot sink) sink).mem _ _ _ _ a.file hmem
  have hstep : statStep sink a.file.path ≤ a.step := Nat.le_trans List.idxOf_le_length hlate
  have hdist : statStep sink a.file.path + (a.step - statStep sink a.file.path) = a.step := by omega
  obtain ⟨more, hmore⟩ := w.opened_grows sink (statStep sink a.file.path) (a.step - statStep sink a.file.path)
    (fun k hi hk => h k hi (by omega)) (w.during a.step) a.file.path c hc
  rw [hdist] at hmore
  refine ⟨c, more, hc, hsize, ?_⟩
  rw [view, if_neg (by omega)]
  exact hmore

end Race

/-- Whatever the server does during a request: when every step that reads a file opens it without a rotation
since its `os.Stat`, or finds nothing to read, and the request starts between two lines, the answer is made of
whole records, none twice. -/
theorem getLines_race {n : ℕ} (w : Race n) (sink : Sink) (hn : n = sink.maxFiles) (lower : Bytes → Bytes)
    (budget : ℕ) (r : LinesRequest)
    (hreads : ∀ a ∈ fileSteps (w.view sink) lower budget sink r,
      w.Settled sink a ∨ a.Misses (w.view sink a.step))
    (hstart : r.tail = true ∨ LineStart r.startOffset (chainTexts (w.snapshot sink) sink)) :
    ∃ ps : List Record, ps.Sublist (w.log n).history ∧
      (getLines (w.view sink) lower budget sink r).lines = ps.map Record.text := by
  obtain ⟨rs, hstores, hrs⟩ := w.snapshot_stores sink hn
  have hstat : ∀ i path, (candidates sink)[i]? = some path → w.view sink i path = w.snapshot sink path := by
    intro i path hpath
    obtain ⟨hi, -⟩ := List.getElem?_eq_some_iff.mp hpath
    rw [Race.view, if_pos hi]
    exact w.snapshot_eq sink i path hpath
  have hfinds : ∀ a ∈ fileSteps (w.view sink) lower budget sink r,
      a.Finds (w.snapshot sink) (w.view sink a.step) := by
    intro a ha
    obtain ⟨hmem, hlate⟩ := fileSteps_mem (w.view sink) lower budget sink r a ha
    rw [newFileChain_congr (w.snapshot sink) (w.view sink) sink hstat] at hmem
    cases hreads a ha with
    | inl hsettled => exact .inl (hsettled.sees w sink a hlate hmem)
    | inr hmisses => exact .inr hmisses
  obtain ⟨ps, hps, hlines⟩ := hstores.lines_whole (w.snapshot sink) sink rs
    (w.view sink) lower budget r hstat hfinds hstart
  exact ⟨ps, hps.trans hrs, hlines⟩

/-! ## Two races -/

def lastLines : LinesRequest := ⟨true, 0, 200, .forward, -1, everything⟩

def wide : Record where
  text := ascii "333"
  nonempty := List.cons_ne_nil _ _
  oneLine := by decide
  plain := ⟨show 3 < maxLineBytes by decide, by decide⟩

/-- A rotation while the active file is read; generation 1 is then a file shorter than the one it was. -/
def noticed : Race 1 where
  start := ⟨[[wide]], [], [], Nat.le_refl 1⟩
  between := fun k => if k = 1 then [.append two] else []
  during := fun k => if k = 2 then [.rotate, .append three] else []

theorem getLines_race_noticed :
    let d := getLines (noticed.view oneGeneration) id 100 oneGeneration lastLines
    (∃ ps : List Record, ps.Sublist (noticed.log 1).history ∧ d.lines = ps.map Record.text) ∧
    d.lines = [ascii "2"] := by
  refine ⟨getLines_race noticed oneGeneration rfl id 100 lastLines ?_ (.inl rfl), by decide +kernel⟩
  have hsteps : fileSteps (noticed.view oneGeneration) id 100 oneGeneration lastLines =
      [⟨2, ⟨ascii "/l/s.jsonl", 4, 2⟩, 2⟩, ⟨3, ⟨ascii "/l/s.1.jsonl", 0, 4⟩, 4⟩] := by decide +kernel
  intro a ha
  rw [hsteps] at ha
  cases List.mem_cons.mp ha with
  | inl hactive =>
    rw [hactive]
    left
    intro k hstat hk
    have hstep : Race.statStep oneGeneration (ascii "/l/s.jsonl") = 1 := by decide +kernel
    rw [hstep] at hstat
    have hone : k = 1 := Nat.le_antisymm (Nat.le_of_lt_succ hk) hstat
    rw [hone]
    exact List.not_mem_nil
  | inr hold =>
    rw [List.mem_singleton.mp hold]
    right
    intro c hc
    have hview : noticed.view oneGeneration 3 (ascii "/l/s.1.jsonl") = some [0x32, lf] := by decide +kernel
    rw [← Option.some.inj (hview.symm.trans hc)]
    decide

/-- A rotation between the last `os.Stat` and the first read. -/
def overtaken : Race 1 where
  start := ⟨[[one]], [wide], [], Nat.le_refl 1⟩
  between := fun k => if k = 2 then [.rotate] else []
  during := fun _ => []

/-- Generation 1 is now another file, longer than the one it was: its first bytes are returned as a line. -/
theorem getLines_race_overtaken :
    let d := getLines (overtaken.view oneGeneration) id 100 oneGeneration lastLines
    d.lines = [ascii "33"] ∧ ∀ k, ∀ q ∈ (overtaken.log k).history, q.text ≠ ascii "33" := by
  refine ⟨by decide +kernel, ?_⟩
  have hhistory : ∀ k, (overtaken.log k).history = [one, wide] := by
    intro k
    induction k with
    | zero => rfl
    | succ k ih =>
      rw [Race.log]
      by_cases hk : k + 1 = 2
      · have hact : overtaken.during k ++ overtaken.between (k + 1) = [.rotate] := if_pos hk
        rw [hact, List.foldl_cons, List.foldl_nil]
        exact (Log.history_rotate _).trans ih
      · have hact : overtaken.during k ++ overtaken.between (k + 1) = [] := if_neg hk
        rw [hact]
        exact ih
  intro k q hq
  rw [hhistory] at hq
  cases List.mem_cons.mp hq with
  | inl h =>
    rw [h]
    decide
  | inr h =>
    rw [List.mem_singleton.mp h]
    decide

end Minilog.Viewer
