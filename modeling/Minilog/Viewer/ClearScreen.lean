import Minilog.Viewer.LiveTail

/-! "Clear Screen": the tab remembers the end of the chain as it is then and asks only for what lies at or
behind it.

What was there stays hidden whatever happens (`ClearInv.rendered`), since offsets only move down: every row
shows a record that was written later (`Newer`). For the same reason records that come later can fall in front
of the remembered offset: once rotations have dropped bytes, the oldest record that is newer than the clear is
hidden as well (`run_clear_hides`). -/
namespace Minilog.Viewer
open Lib
set_option autoImplicit false

section Clear

variable {n : ℕ} (sink : Sink) (lower : Bytes → Bytes) (budget : ℕ) (parses : Bytes → Bool)

namespace Live

def clearView (s : Live n) : Live n := { s with tab := s.tab.clearView }

/-- The rows made of an answer, at the places of their lines among all bytes ever written. -/
def placedRows (s : Live n) (t : Tab) (d : LinesResponse) : List (ℕ × Bytes) :=
  (Tab.buildRows parses t.asked d).map fun row => (s.log.evicted + row.offset, row.rawJson)

/-- The rows a step adds to the table. -/
def rendered (s : Live n) : LiveAction → List (ℕ × Bytes)
  | .append _ => []
  | .rotate => []
  | .poll =>
    let d := s.answer sink lower budget s.tab.pollRequest
    if s.reloading = true ∨ s.tab.regressed d = true then [] else s.placedRows parses s.tab d
  | .load => s.placedRows parses s.tab.loadTail (s.answer sink lower budget s.tab.loadTail.tailRequest)

/-- All rows that were in the table at some time of a run. -/
def shown (s : Live n) : List LiveAction → List (ℕ × Bytes)
  | [] => []
  | a :: actions => s.rendered sink lower budget parses a ++ shown (s.step sink lower budget parses a) actions

end Live

/-- The records written after `s` that the chain of `s'` still holds are at or behind the offset the tab asks
for. -/
def InRange (s s' : Live n) : Prop :=
  ∀ before r behind, s'.log.records = before ++ r :: behind →
    s.log.history.length ≤ s'.log.dropped.length + before.length →
    s'.tab.since ≤ ((recordsText before).length : ℤ)

/-- A row with this place and text shows a record written after `s`, or the end of one: a poll whose offset
stands inside a record, because rotations have moved it there, gets the rest of that record. -/
def Newer (s s' : Live n) (p : ℕ × Bytes) : Prop :=
  ∃ before r behind cut, s'.log.history = before ++ r :: behind ∧ s.log.history.length ≤ before.length ∧
    cut ≤ r.text.length ∧ p = ((recordsText before).length + cut, r.text.drop cut)

/-- No bytes were dropped since `s`, or the chain was empty then, or it is empty now, or nothing was written
since. -/
def Unmoved (s s' : Live n) : Prop :=
  s'.log.evicted = s.log.evicted ∨ s.log.records = [] ∨ s'.log.records = [] ∨ s'.log.history = s.log.history

/-! ## What a run keeps -/

theorem step_history (s : Live n) (a : LiveAction) :
    s.log.history <+: (s.step sink lower budget parses a).log.history := by
  cases a with
  | append r =>
    change _ <+: (s.log.append r).history
    rw [Log.history_append]
    exact List.prefix_append _ _
  | rotate =>
    change _ <+: s.log.rotate.history
    rw [Log.history_rotate]
  | poll =>
    unfold Live.step Live.poll
    simp only
    split
    · exact List.prefix_refl _
    · split
      · exact List.prefix_refl _
      · exact List.prefix_refl _
  | load => exact List.prefix_refl _

theorem run_keeps_history (s : Live n) (actions : List LiveAction) :
    s.log.history <+: (s.run sink lower budget parses actions).log.history := by
  induction actions generalizing s with
  | nil => exact List.prefix_refl _
  | cons a actions ih => exact (step_history sink lower budget parses s a).trans (ih _)

structure ClearInv (s s' : Live n) : Prop where
  clear : s'.tab.clearOffset = some (recordsText s.log.records).length
  dropped : s.log.dropped <+: s'.log.dropped
  history : s.log.history <+: s'.log.history

theorem ClearInv.evicted (s s' : Live n) (h : ClearInv s s') : s.log.evicted ≤ s'.log.evicted := by
  obtain ⟨u, hu⟩ := h.dropped
  unfold Log.evicted
  rw [← hu, recordsText_append, List.length_append]
  exact Nat.le_add_right _ _

theorem ClearInv.start (s : Live n) (hread : s.tab.tailOffset = (recordsText s.log.records).length) :
    ClearInv s s.clearView :=
  ⟨congrArg some hread, List.prefix_refl _, List.prefix_refl _⟩

theorem ClearInv.step (s s' : Live n) (h : ClearInv s s') (a : LiveAction) :
    ClearInv s (s'.step sink lower budget parses a) := by
  have hhist := h.history.trans (step_history sink lower budget parses s' a)
  cases a with
  | append r => exact ⟨h.clear, h.dropped, hhist⟩
  | rotate => exact ⟨h.clear, h.dropped.trans (List.prefix_append _ _), hhist⟩
  | poll =>
    unfold Live.step
    simp only
    split
    · exact h
    · unfold Live.poll
      simp only
      split
      · exact ⟨h.clear, h.dropped, h.history⟩
      · exact ⟨(pollTailDone_keeps parses _ _ _).2.2.2.trans h.clear, h.dropped, h.history⟩
  | load => exact ⟨h.clear, h.dropped, h.history⟩

theorem ClearInv.run (s s' : Live n) (h : ClearInv s s') (actions : List LiveAction) :
    ClearInv s (s'.run sink lower budget parses actions) := by
  induction actions generalizing s' with
  | nil => exact h
  | cons a actions ih => exact ih (s'.step sink lower budget parses a) (h.step sink lower budget parses s s' a)

/-! ## What was there stays hidden -/

/-- What is at or behind the end of the history of `s`, and in a record, is in a record written after `s`. -/
theorem newer_of_place (s s' : Live n) (hhist : s.log.history <+: s'.log.history) (before : List Record)
    (r : Record) (behind : List Record) (cut : ℕ) (hsplit : s'.log.history = before ++ r :: behind)
    (hcut : cut ≤ r.text.length)
    (hplace : (recordsText s.log.history).length ≤ (recordsText before).length + cut) :
    Newer s s' ((recordsText before).length + cut, r.text.drop cut) := by
  refine ⟨before, r, behind, cut, hsplit, ?_, hcut, rfl⟩
  by_contra hshort
  -- otherwise the record is one of those of `s`, and ends before their end
  have hfront : before ++ [r] <+: s'.log.history :=
    ⟨behind, by rw [hsplit, List.append_assoc, List.singleton_append]⟩
  have hlen : (before ++ [r]).length ≤ s.log.history.length := by
    rw [List.length_append, List.length_singleton]
    omega
  obtain ⟨u, hu⟩ := List.prefix_of_prefix_length_le hfront hhist hlen
  have hbytes := congrArg (fun qs => (recordsText qs).length) hu
  simp only [recordsText_append, recordsText_cons, List.length_append, List.length_cons] at hbytes
  omega

theorem Newer.later (s s' s'' : Live n) (p : ℕ × Bytes) (h : Newer s s' p)
    (hhist : s'.log.history <+: s''.log.history) :
    Newer s s'' p := by
  obtain ⟨before, r, behind, cut, hsplit, hindex, hcut, hp⟩ := h
  obtain ⟨u, hu⟩ := hhist
  exact ⟨before, r, behind ++ u, cut,
    by rw [← hu, hsplit, List.append_assoc, List.cons_append], hindex, hcut, hp⟩

theorem ClearInv.placedRows (s s' : Live n) (hn : n = sink.maxFiles) (h : ClearInv s s') (t : Tab)
    (r : LinesRequest) (hr : r.tail = true ∨ r.dir = .forward)
    (hsince : r.since = (recordsText s.log.records).length) (hcount : r.count = BATCH) :
    ∀ p ∈ s'.placedRows parses t (s'.answer sink lower budget r), Newer s s' p := by
  intro p hp
  obtain ⟨row, hrow, hrowp⟩ := List.mem_map.mp hp
  obtain ⟨q, hq, hqrow⟩ := List.mem_map.mp hrow
  have hmem := (List.mem_filter.mp hq).1
  have hone : 1 ≤ r.count := by
    rw [hcount]
    exact Nat.le_of_lt (show 1 < BATCH by decide)
  have hge := getLines_since (s'.log.directory sink) sink lower budget r _ hsince hone q hmem
  obtain ⟨before, u, behind, cut, hsplit, hcut, hplace⟩ :=
    getLines_within (s'.log.directory sink) sink _ (s'.log.stores sink hn) lower budget r hr hone q hmem
  have hfront : (recordsText (s'.log.dropped ++ before)).length =
      s'.log.evicted + (recordsText before).length := by
    rw [recordsText_append, List.length_append]
    rfl
  have hp : p = ((recordsText (s'.log.dropped ++ before)).length + cut, u.text.drop cut) := by
    rw [← hrowp, ← hqrow, hplace, hfront, Nat.zero_add, Nat.add_assoc]
  rw [hp]
  refine newer_of_place s s' h.history _ u behind cut ?_ hcut ?_
  · rw [Log.history, hsplit, List.append_assoc]
  · have hev := h.evicted
    rw [hplace] at hge
    rw [hfront, Log.history, recordsText_append, List.length_append]
    unfold Log.evicted at hev ⊢
    simp only at hge
    omega

theorem ClearInv.rendered (s s' : Live n) (hn : n = sink.maxFiles) (h : ClearInv s s') (a : LiveAction) :
    ∀ p ∈ s'.rendered sink lower budget parses a, Newer s s' p := by
  have hsince : s'.tab.since = (recordsText s.log.records).length := by
    rw [Tab.since, h.clear]
  cases a with
  | append r => exact fun p hp => absurd hp List.not_mem_nil
  | rotate => exact fun p hp => absurd hp List.not_mem_nil
  | poll =>
    unfold Live.rendered
    simp only
    split
    · exact fun p hp => absurd hp List.not_mem_nil
    · exact h.placedRows sink lower budget parses s s' hn s'.tab s'.tab.pollRequest (.inr rfl) hsince rfl
  | load =>
    exact h.placedRows sink lower budget parses s s' hn s'.tab.loadTail s'.tab.loadTail.tailRequest
      (.inl rfl) hsince rfl

theorem ClearInv.shown (s s' : Live n) (hn : n = sink.maxFiles) (h : ClearInv s s')
    (actions : List LiveAction) :
    ∀ p ∈ s'.shown sink lower budget parses actions, Newer s (s'.run sink lower budget parses actions) p := by
  induction actions generalizing s' with
  | nil => exact fun p hp => absurd hp List.not_mem_nil
  | cons a actions ih =>
    intro p hp
    cases List.mem_append.mp hp with
    | inl hp =>
      exact (h.rendered sink lower budget parses s s' hn a p hp).later s s' _ p
        (run_keeps_history sink lower budget parses s' (a :: actions))
    | inr hp => exact ih (s'.step sink lower budget parses a) (h.step sink lower budget parses s s' a) p hp

/-! ## What comes later -/

theorem ClearInv.inRange_iff (s s' : Live n) (h : ClearInv s s') : InRange s s' ↔ Unmoved s s' := by
  have hsince : s'.tab.since = (recordsText s.log.records).length := by
    rw [Tab.since, h.clear]
  have hev := h.evicted
  have hlen : (recordsText s.log.history).length = s.log.evicted + (recordsText s.log.records).length := by
    rw [Log.history, recordsText_append, List.length_append]
    rfl
  obtain ⟨new, hnew⟩ := h.history
  unfold InRange
  rw [hsince]
  constructor
  · intro hrange
    by_cases hchain : s'.log.records = []
    · exact .inr (.inr (.inl hchain))
    cases hrest : new with
    | nil =>
      rw [hrest, List.append_nil] at hnew
      exact .inr (.inr (.inr hnew.symm))
    | cons r rest =>
      rw [hrest] at hnew
      -- the oldest record of the chain that is newer than the clear
      cases List.append_eq_append_iff.mp (hnew : s.log.history ++ r :: rest = s'.log.dropped ++
        s'.log.records) with
      | inl hall =>
        obtain ⟨u, hdropped, -⟩ := hall
        obtain ⟨q, qs, hq⟩ := List.exists_cons_of_ne_nil hchain
        have hzero := hrange [] q qs hq (by rw [hdropped, List.length_append]; exact Nat.le_add_right _ _)
        refine .inr (.inl ((recordsText_eq_nil _).mp (List.length_eq_zero_iff.mp ?_)))
        exact Nat.le_zero.mp (Int.ofNat_le.mp hzero)
      | inr hpart =>
        obtain ⟨u, hold, hrecords⟩ := hpart
        have hfirst := hrange u r rest hrecords (by rw [hold, List.length_append])
        have hu : (recordsText s.log.history).length = s'.log.evicted + (recordsText u).length := by
          rw [hold, recordsText_append, List.length_append]
          rfl
        left
        omega
  · intro hunmoved before r behind hsplit hindex
    -- the record is written after everything that was there
    have hprefix : s.log.history <+: s'.log.dropped ++ before := by
      have hfront : s'.log.dropped ++ before <+: s'.log.history := by
        rw [Log.history, hsplit, ← List.append_assoc]
        exact List.prefix_append _ _
      exact List.prefix_of_prefix_length_le h.history hfront (by rw [List.length_append]; exact hindex)
    obtain ⟨u, hu⟩ := hprefix
    have hbytes : (recordsText s.log.history).length ≤ s'.log.evicted + (recordsText before).length := by
      have := congrArg (fun qs => (recordsText qs).length) hu
      simp only [recordsText_append, List.length_append] at this
      unfold Log.evicted
      omega
    cases hunmoved with
    | inl heq => omega
    | inr hrest =>
      cases hrest with
      | inl hempty =>
        rw [hempty]
        exact Int.natCast_nonneg _
      | inr hrest =>
        cases hrest with
        | inl hnone =>
          rw [hnone] at hsplit
          exact absurd hsplit (by simp)
        | inr hsame =>
          have := congrArg List.length hsame
          rw [Log.history, hsplit] at this
          simp only [List.length_append, List.length_cons] at this
          omega

/-! ## The table -/

theorem placedRows_texts (s : Live n) (t : Tab) (d : LinesResponse) :
    (s.placedRows parses t d).map Prod.snd = (Tab.buildRows parses t.asked d).map Row.rawJson := by
  unfold Live.placedRows
  rw [List.map_map]
  rfl

theorem step_rows (s : Live n) (a : LiveAction) : ∀ row ∈ (s.step sink lower budget parses a).tab.rows,
    row ∈ s.tab.rows ∨ row.rawJson ∈ (s.rendered sink lower budget parses a).map Prod.snd := by
  cases a with
  | append r => exact fun row h => .inl h
  | rotate => exact fun row h => .inl h
  | poll =>
    intro row hrow
    unfold Live.step Live.poll at hrow
    simp only at hrow
    unfold Live.rendered
    simp only
    by_cases hre : s.reloading = true
    · rw [if_pos hre] at hrow
      exact .inl hrow
    rw [if_neg hre] at hrow
    by_cases hreg : s.tab.regressed (s.answer sink lower budget s.tab.pollRequest) = true
    · rw [if_pos hreg] at hrow
      exact absurd hrow List.not_mem_nil
    rw [if_neg hreg] at hrow
    rw [if_neg (not_or.mpr ⟨hre, hreg⟩), placedRows_texts]
    unfold Tab.pollTailDone at hrow
    simp only at hrow
    split at hrow
    · exact .inl hrow
    · obtain ⟨rows, top, who, hprune, hrows⟩ := Tab.pruneTop_frame { s.tab with
        chainEnd := (s.answer sink lower budget s.tab.pollRequest).tailOffset
        tailOffset := (s.answer sink lower budget s.tab.pollRequest).nextOffset
        tailAsked := some s.tab.asked
        rows := s.tab.rows ++ Tab.buildRows parses s.tab.asked (s.answer sink lower budget s.tab.pollRequest) }
      rw [hprune] at hrow
      cases List.mem_append.mp (hrows hrow) with
      | inl h => exact .inl h
      | inr h => exact .inr (List.mem_map_of_mem h)
  | load =>
    intro row hrow
    right
    unfold Live.rendered
    simp only
    rw [placedRows_texts]
    exact List.mem_map_of_mem hrow

theorem run_rows (s : Live n) (actions : List LiveAction) :
    ∀ row ∈ (s.run sink lower budget parses actions).tab.rows, row ∈ s.tab.rows ∨
    row.rawJson ∈ (s.shown sink lower budget parses actions).map Prod.snd := by
  induction actions generalizing s with
  | nil => exact fun row h => .inl h
  | cons a actions ih =>
    intro row hrow
    unfold Live.shown
    rw [List.map_append, List.mem_append]
    cases ih (s.step sink lower budget parses a) row hrow with
    | inr h => exact .inr (.inr h)
    | inl h =>
      cases step_rows sink lower budget parses s a row h with
      | inl h => exact .inl h
      | inr h => exact .inr (.inl h)

/-- After a clear at the end of the chain, in every run: all rows that are ever in the table show records
written since, each the record at its place, and everything written since can be shown exactly as long as the
offsets have not moved. -/
theorem run_clear_hides (s : Live n) (hn : n = sink.maxFiles)
    (hread : s.tab.tailOffset = (recordsText s.log.records).length) (actions : List LiveAction) :
    let s' := s.clearView.run sink lower budget parses actions
    let shown := s.clearView.shown sink lower budget parses actions
    (∀ row ∈ s'.tab.rows, row.rawJson ∈ shown.map Prod.snd) ∧
    ((InRange s s' ∧ ∀ p ∈ shown, Newer s s' p) ↔ Unmoved s s') := by
  intro s' shown
  have hstart := ClearInv.start s hread
  refine ⟨?_, ?_⟩
  · intro row hrow
    exact (run_rows sink lower budget parses s.clearView actions row hrow).resolve_left List.not_mem_nil
  · have hold := hstart.shown sink lower budget parses s s.clearView hn actions
    have hnew := (hstart.run sink lower budget parses s s.clearView actions).inRange_iff
    constructor
    · exact fun h => hnew.mp h.1
    · exact fun h => ⟨hnew.mpr h, hold⟩

end Clear

/-! ## Two runs -/

/-- A log with one record that the tab has read. -/
def readToEnd : Live 1 := opened.run oneGeneration id 100 (fun _ => true) [.load]

theorem run_clear_hides_rotated :
    let s' := readToEnd.clearView.run oneGeneration id 100 (fun _ => true) [.rotate, .append two, .poll]
    InRange readToEnd s' ∧ s'.tab.rows.map Row.rawJson = [ascii "2"] := by
  refine ⟨?_, by decide +kernel⟩
  have hclear := run_clear_hides oneGeneration id 100 (fun _ => true) readToEnd rfl (by decide +kernel)
    [.rotate, .append two, .poll]
  exact (hclear.2.mpr (.inl rfl)).1

/-- The second rotation drops the record from before the clear, and the one that was written after it takes
its place. -/
theorem run_clear_hides_dropped :
    let s' := readToEnd.clearView.run oneGeneration id 100 (fun _ => true) [.rotate, .append two, .rotate,
      .load, .poll]
    readToEnd.tab.tailOffset = (recordsText readToEnd.log.records).length ∧ s'.log.records = [two] ∧
      readToEnd.log.history = [one] ∧
      ¬ InRange readToEnd s' ∧ s'.tab.rows = [] := by
  refine ⟨by decide +kernel, rfl, rfl, ?_, by decide +kernel⟩
  intro hrange
  have hsince := hrange [] two [] rfl (by decide)
  exact absurd hsince (by decide +kernel)

end Minilog.Viewer
