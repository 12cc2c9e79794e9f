import Minilog.Viewer.Handlers

/-! One browser tab (`web-viewer/assets/app.js`): its globals, the requests it makes and what it does with the
answers.

Each of `loadTail`, `pollTailOnce`, `loadOlder` and `jumpToMatch` is cut at its `await`: what it does before
the request is sent, the request, and what it does with the answer (`none` when the fetch fails). Every row
and the two cursors remember the sink and the filter of the request they came from, which the source does not
record. -/
namespace Minilog.Viewer
open Lib
set_option autoImplicit false

def MAX_ROWS : ℕ := 2000
def BATCH : ℕ := 200

theorem one_le_BATCH : 1 ≤ BATCH := by decide

/-- What a request asks about. -/
structure Asked where
  sink : Sink
  filter : Filter
deriving DecidableEq

/-- A table row: `dataset.offset` and `dataset.rawJson`. -/
structure Row where
  offset : ℕ
  rawJson : Bytes
  asked : Asked
deriving DecidableEq

def Row.line (row : Row) : ℕ × Bytes := (row.offset, row.rawJson)

/-- The globals; `pollTimer` and `topObserver` are whether the timer runs and whether the observer watches a
row. -/
structure Tab where
  activeSink : Sink
  filter : Filter
  clearOffset : Option ℕ
  rows : List Row
  topOffset : ℕ
  topAsked : Option Asked
  tailOffset : ℕ
  tailAsked : Option Asked
  chainEnd : ℕ
  searchMatches : List ℕ
  loadingUp : Bool
  polling : Bool
  pollTimer : Bool
  topObserver : Bool
deriving DecidableEq

namespace Tab

/-- `filterParams`: what every request carries. -/
def asked (t : Tab) : Asked := ⟨t.activeSink, t.filter⟩

def since (t : Tab) : ℤ :=
  match t.clearOffset with
  | none => -1
  | some c => c

theorem since_eq (t : Tab) (hclear : t.clearOffset = none) : t.since = -1 := by rw [since, hclear]

def startPoll (t : Tab) : Tab := { t with pollTimer := true }
def stopPoll (t : Tab) : Tab := { t with pollTimer := false }

def clearDOM (t : Tab) : Tab := { t with rows := [], topOffset := 0, topAsked := none, topObserver := false }

def attachTopObserver (t : Tab) : Tab := { t with topObserver := decide (t.topOffset ≠ 0) }

/-- The rows a list of lines makes; lines that do not parse are left out. -/
def buildRows (parses : Bytes → Bool) (a : Asked) (d : LinesResponse) : List Row :=
  (d.entries.filter fun p => parses p.2).map fun p => ⟨p.1, p.2, a⟩

/-- Lines that parse become rows, one by one. -/
theorem buildRows_lines (parses : Bytes → Bool) (a : Asked) (d : LinesResponse)
    (h : ∀ p ∈ d.entries, parses p.2 = true) :
    (buildRows parses a d).map Row.line = d.entries := by
  have hall : d.entries.filter (fun p => parses p.2) = d.entries := List.filter_eq_self.mpr h
  unfold buildRows
  rw [hall, List.map_map]
  exact List.map_id _

/-- One round of the loop of `pruneTop`. -/
def dropTop (t : Tab) : Tab :=
  match t.rows with
  | [] => t
  | [_] => { t with rows := [] }
  | _ :: next :: rest => { t with rows := next :: rest, topOffset := next.offset, topAsked := some next.asked }

def pruneTop (t : Tab) : Tab := (Nat.repeat dropTop (t.rows.length - MAX_ROWS)) t

theorem dropTop_frame (t : Tab) :
    ∃ rows top who, t.dropTop = { t with rows := rows, topOffset := top, topAsked := who } ∧
    rows ⊆ t.rows := by
  unfold dropTop
  split
  · exact ⟨t.rows, t.topOffset, t.topAsked, rfl, List.Subset.refl _⟩
  · exact ⟨[], t.topOffset, t.topAsked, rfl, List.nil_subset _⟩
  · rename_i x next rest hrows
    refine ⟨next :: rest, next.offset, some next.asked, rfl, ?_⟩
    rw [hrows]
    exact List.subset_cons_self _ _

/-- Pruning touches only the rows and the upper cursor. -/
theorem pruneTop_frame (t : Tab) :
    ∃ rows top who, t.pruneTop = { t with rows := rows, topOffset := top, topAsked := who } ∧
    rows ⊆ t.rows := by
  unfold pruneTop
  generalize t.rows.length - MAX_ROWS = m
  induction m with
  | zero => exact ⟨t.rows, t.topOffset, t.topAsked, rfl, List.Subset.refl _⟩
  | succ m ih =>
    obtain ⟨rows, top, who, hm, hrows⟩ := ih
    obtain ⟨rows', top', who', hdrop, hrows'⟩ := dropTop_frame (Nat.repeat dropTop m t)
    refine ⟨rows', top', who', ?_, List.Subset.trans hrows' ?_⟩
    · change (Nat.repeat dropTop m t).dropTop = _
      rw [hdrop, hm]
    · rw [hm]
      exact hrows

theorem dropTop_rows (t : Tab) : t.dropTop.rows = t.rows.drop 1 := by
  unfold dropTop
  split
  · next h => rw [h, List.drop_nil]
  · next h => rw [h]; rfl
  · next h => rw [h]; rfl

/-- The last `MAX_ROWS` rows stay. -/
theorem pruneTop_rows (t : Tab) : t.pruneTop.rows = t.rows.rtake MAX_ROWS := by
  have hrepeat : ∀ m, (Nat.repeat dropTop m t).rows = t.rows.drop m := by
    intro m
    induction m with
    | zero => rfl
    | succ m ih =>
      change (Nat.repeat dropTop m t).dropTop.rows = _
      rw [dropTop_rows, ih, List.drop_drop, Nat.add_comm]
  exact hrepeat _

theorem rtake_append_rtake {α : Type} (n : ℕ) (x y : List α) : (x.rtake n ++ y).rtake n = (x ++ y).rtake n := by
  have hfront : x.rtake n ++ y = (x ++ y).drop (x.length - n) :=
    (List.drop_append_of_le_length (Nat.sub_le _ _)).symm
  rw [hfront]
  unfold List.rtake
  rw [List.drop_drop, List.length_drop, List.length_append]
  congr 1
  omega

/-! ## loadTail -/

def loadTail (t : Tab) : Tab := { (t.stopPoll.clearDOM) with searchMatches := [] }

def tailRequest (t : Tab) : LinesRequest := ⟨true, 0, BATCH, .forward, t.since, t.filter⟩

def loadTailDone (parses : Bytes → Bool) (a : Asked) (t : Tab) : Option LinesResponse → Tab
  | none => t.startPoll
  | some d =>
    startPoll (attachTopObserver
      { t with
        tailOffset := d.tailOffset
        tailAsked := some a
        chainEnd := d.tailOffset
        topOffset := d.firstOffset
        topAsked := some a
        rows := t.rows ++ buildRows parses a d })

/-! ## pollTail -/

def pollRequest (t : Tab) : LinesRequest := ⟨false, t.tailOffset, BATCH, .forward, t.since, t.filter⟩

/-- The end of the chain is in front of where the last answer saw it. -/
def regressed (t : Tab) (d : LinesResponse) : Bool := decide (d.tailOffset < t.chainEnd)

/-- `pollTailOnce` behind the test for a regressed chain, which it answers with `loadTail`. -/
def pollTailDone (parses : Bytes → Bool) (a : Asked) (t : Tab) (d : LinesResponse) : Tab :=
  let moved : Tab := { t with chainEnd := d.tailOffset, tailOffset := d.nextOffset, tailAsked := some a }
  if d.lines.length = 0 then moved
  else pruneTop { moved with rows := t.rows ++ buildRows parses a d }

/-- A poll appends its rows to the table, of which the last `MAX_ROWS` stay. -/
theorem pollTailDone_rows (parses : Bytes → Bool) (a : Asked) (t : Tab) (d : LinesResponse) {α : Type}
    (f : Row → α) (x : List α) (h : t.rows.map f = x.rtake MAX_ROWS) :
    (t.pollTailDone parses a d).rows.map f = (x ++ (buildRows parses a d).map f).rtake MAX_ROWS := by
  unfold pollTailDone
  simp only
  split
  · next hnone =>
    have hempty : buildRows parses a d = [] := by
      unfold buildRows LinesResponse.entries
      rw [List.length_eq_zero_iff.mp hnone, List.zip_nil_right]
      rfl
    rw [hempty, List.map_nil, List.append_nil]
    exact h
  · rw [pruneTop_rows]
    dsimp only
    rw [List.rtake, List.map_drop, List.map_append, h, ← rtake_append_rtake, ← h, List.rtake,
      List.length_append, List.length_append, List.length_map, List.length_map]

/-! ## loadOlder -/

def olderRequest (t : Tab) : LinesRequest := ⟨false, t.topOffset, BATCH, .backward, t.since, t.filter⟩

def loadOlderDone (parses : Bytes → Bool) (a : Asked) (t : Tab) : Option LinesResponse → Tab
  | none => { t with loadingUp := false }
  | some d =>
    let grown : Tab :=
      if 0 < d.lines.length then
        { t with rows := buildRows parses a d ++ t.rows, topOffset := d.firstOffset, topAsked := some a }
      else t
    { grown.attachTopObserver with loadingUp := false }

/-! ## jumpToMatch -/

def shows (t : Tab) (offset : ℕ) : Bool := t.rows.any fun row => row.offset == offset

def jumpToMatch (t : Tab) : Tab := t.stopPoll.clearDOM

def matchRequest (t : Tab) (offset : ℕ) : LinesRequest := ⟨false, offset, BATCH, .forward, t.since, t.filter⟩

def jumpToMatchDone (parses : Bytes → Bool) (a : Asked) (t : Tab) : Option LinesResponse → Tab
  | none => t
  | some d =>
    startPoll (attachTopObserver
      { t with
        tailOffset := d.tailOffset
        tailAsked := some a
        chainEnd := d.tailOffset
        topOffset := d.firstOffset
        topAsked := some a
        rows := t.rows ++ buildRows parses a d })

/-- Without a clear, the forward requests of a poll and of a jump ask for one batch and no more. -/
theorem forward_request (t : Tab) (hclear : t.clearOffset = none) (o : ℕ) :
    (t.matchRequest o).tail = false ∧ (t.matchRequest o).dir = .forward ∧ (t.matchRequest o).since = -1 ∧
      1 ≤ (t.matchRequest o).count := by
  exact ⟨rfl, rfl, t.since_eq hclear, one_le_BATCH⟩

/-! ## The user -/

def clearView (t : Tab) : Tab :=
  startPoll (clearDOM (stopPoll { t with clearOffset := some t.tailOffset, searchMatches := [] }))

def changeFilter (t : Tab) (f : Filter) : Tab := loadTail { t with filter := f }

def changeSink (t : Tab) (s : Sink) : Tab := loadTail { t with activeSink := s, clearOffset := none }

end Tab

end Minilog.Viewer
