import Minilog.Viewer.Tab

/-! The live tail: the server appends and rotates, the tab polls, each poll answered from one snapshot of the
directory.

Offsets count from the oldest record the chain still holds, so that a rotation that drops a generation moves
them. The tab notices it only when the chain has become shorter than at its last answer. As long as it does,
the rows its polls add are the records appended since the last `loadTail`, one after another, and the table
ends with them (`run_live_tail`). -/
namespace Minilog.Viewer
open Lib
set_option autoImplicit false

/-- The log and the tab. `reloading` is that the answer to a `loadTail` is to come; `snapshot` is how many
records there were at the last one, `polled` what polls have rendered since, and `seenEvicted` how many bytes
were dropped when the tab's last answer was made. -/
structure Live (n : ℕ) where
  log : Log n
  tab : Tab
  reloading : Bool
  snapshot : ℕ
  polled : List Bytes
  seenEvicted : ℕ

inductive LiveAction
  | append (r : Record)
  | rotate
  | poll
  | load

section Live

variable {n : ℕ} (sink : Sink) (lower : Bytes → Bytes) (budget : ℕ) (parses : Bytes → Bool)

namespace Live

def answer (s : Live n) (r : LinesRequest) : LinesResponse :=
  getLines (fun _ => s.log.directory sink) lower budget sink r

def poll (s : Live n) : Live n :=
  let d := s.answer sink lower budget s.tab.pollRequest
  if s.tab.regressed d = true then { s with tab := s.tab.loadTail, reloading := true }
  else
    { s with
      tab := s.tab.pollTailDone parses s.tab.asked d
      polled := s.polled ++ (Tab.buildRows parses s.tab.asked d).map Row.rawJson
      seenEvicted := s.log.evicted }

def load (s : Live n) : Live n :=
  let t := s.tab.loadTail
  { s with
    tab := t.loadTailDone parses t.asked (some (s.answer sink lower budget t.tailRequest))
    reloading := false
    snapshot := s.log.history.length
    polled := []
    seenEvicted := s.log.evicted }

/-- A poll finds no timer while the answer to a `loadTail` is to come. -/
def step (s : Live n) : LiveAction → Live n
  | .append r => { s with log := s.log.append r }
  | .rotate => { s with log := s.log.rotate }
  | .poll => if s.reloading = true then s else s.poll sink lower budget parses
  | .load => s.load sink lower budget parses

def run (s : Live n) (actions : List LiveAction) : Live n := actions.foldl (step sink lower budget parses) s

end Live

/-- The tab watches the sink without filter and clear, and waits for its first answer. -/
structure Started (s : Live n) : Prop where
  maxFiles : n = sink.maxFiles
  activeSink : s.tab.activeSink = sink
  filter : s.tab.filter = everything
  clear : s.tab.clearOffset = none
  reloading : s.reloading = true
  polled : s.polled = []
  snapshot : s.snapshot = s.log.history.length
  parses : ∀ r ∈ s.log.history, parses r.text = true

/-- What the server appends is JSON. -/
def LiveAction.Written : LiveAction → Prop
  | .append r => parses r.text = true
  | _ => True

/-- No bytes were dropped since the tab's last answer, or the chain has become shorter since. -/
def Detectable (s : Live n) : Prop :=
  s.log.evicted = s.seenEvicted ∨ (recordsText s.log.records).length < s.tab.chainEnd

/-- Every poll that a run answers finds the log in a state where a drop can be told. -/
def AllDetectable (s : Live n) : List LiveAction → Prop
  | [] => True
  | a :: actions =>
    (a = .poll → s.reloading = false → Detectable s) ∧ AllDetectable (s.step sink lower budget parses a) actions

/-! ## The invariant -/

/-- The table: the last records from before the snapshot, as many as one answer gave, and what polls have
rendered since. The last `MAX_ROWS` of them are left. -/
def Tabled (s : Live n) (old : List Record) : Prop :=
  ∃ loaded, loaded <:+ old.map Record.text ∧ loaded.length ≤ BATCH ∧
    s.tab.rows.map Row.rawJson = (loaded ++ s.polled).rtake MAX_ROWS

/-- The records are those from before the snapshot, those that polls have rendered, and those they have not;
the cursor stands behind the second. -/
structure LiveInv (s : Live n) : Prop where
  activeSink : s.tab.activeSink = sink
  filter : s.tab.filter = everything
  clear : s.tab.clearOffset = none
  parses : ∀ r ∈ s.log.history, parses r.text = true
  cursor : ∃ old seen rest, s.log.history = old ++ seen ++ rest ∧ old.length = s.snapshot ∧
    s.polled = seen.map Record.text ∧
    (s.reloading = false → s.seenEvicted + s.tab.tailOffset = (recordsText (old ++ seen)).length ∧ Tabled s old)

theorem pollTailDone_keeps (t : Tab) (a : Asked) (d : LinesResponse) :
    (t.pollTailDone parses a d).tailOffset = d.nextOffset ∧
      (t.pollTailDone parses a d).activeSink = t.activeSink ∧
      (t.pollTailDone parses a d).filter = t.filter ∧
      (t.pollTailDone parses a d).clearOffset = t.clearOffset := by
  unfold Tab.pollTailDone
  simp only
  split
  · exact ⟨rfl, rfl, rfl, rfl⟩
  · obtain ⟨rows, top, who, hprune, -⟩ := Tab.pruneTop_frame { t with
      chainEnd := d.tailOffset, tailOffset := d.nextOffset, tailAsked := some a, rows :=
      t.rows ++ Tab.buildRows parses a d }
    rw [hprune]
    exact ⟨rfl, rfl, rfl, rfl⟩

/-- Records that parse become rows with their own text. -/
theorem buildRows_records (keeps : Bytes → Bool) (a : Asked) (d : LinesResponse) (o : ℕ) (rs : List Record)
    (hd : d.entries = kept keeps (located o rs)) (hall : kept keeps (located o rs) = located o rs)
    (hp : ∀ r ∈ rs, parses r.text = true) :
    (Tab.buildRows parses a d).map Row.rawJson = rs.map Record.text := by
  have hlines := Tab.buildRows_lines parses a d (hd ▸ kept_texts_of parses keeps o rs hp)
  have hraw : (Tab.buildRows parses a d).map Row.rawJson =
      ((Tab.buildRows parses a d).map Row.line).map Prod.snd := by
    rw [List.map_map]
    rfl
  rw [hraw, hlines, hd, hall, located_texts]

theorem kept_everything (lower : Bytes → Bytes) (o : ℕ) (rs : List Record) :
    kept (everything.matches lower) (located o rs) = located o rs := by
  apply List.filter_eq_self.mpr
  intro p hp
  simp [located_nonempty o rs p hp, matches_everything]

/-- Two ways to cut a history: the one that cuts fewer bytes off is a prefix of the other. -/
theorem records_prefix (a b c d : List Record) (h : a ++ b = c ++ d)
    (hlen : (recordsText a).length ≤ (recordsText c).length) :
    ∃ mid, c = a ++ mid ∧ b = mid ++ d := by
  cases List.append_eq_append_iff.mp h with
  | inl hu => exact hu
  | inr hu =>
    obtain ⟨u, ha, hd⟩ := hu
    have hu : u = [] := by
      rw [ha, recordsText_append, List.length_append] at hlen
      exact (recordsText_eq_nil u).mp (List.length_eq_zero_iff.mp (by omega))
    refine ⟨[], ?_, ?_⟩
    · rw [ha, hu, List.append_nil, List.append_nil]
    · rw [hd, hu, List.nil_append, List.nil_append]

/-- A poll goes on where the last one stopped, unless it finds the chain shorter. -/
theorem LiveInv.poll (s : Live n) (hn : n = sink.maxFiles) (h : LiveInv sink parses s)
    (hactive : s.reloading = false) (hdetect : Detectable s) :
    LiveInv sink parses (s.poll sink lower budget parses) := by
  obtain ⟨old, seen, rest, hhist, hold, hpolled, hcursor⟩ := h.cursor
  obtain ⟨hcursor, loaded, hloaded, hfits, htable⟩ := hcursor hactive
  have hstores := s.log.stores sink hn
  unfold Live.poll
  simp only
  by_cases hreg : s.tab.regressed (s.answer sink lower budget s.tab.pollRequest) = true
  · rw [if_pos hreg]
    refine ⟨h.activeSink, h.filter, h.clear, h.parses, old, seen, rest, hhist, hold, hpolled, ?_⟩
    intro hno
    exact absurd hno (by simp)
  rw [if_neg hreg]
  have hseen : s.log.evicted = s.seenEvicted := by
    refine hdetect.resolve_right fun hshort => hreg ?_
    unfold Tab.regressed Live.answer
    rw [getLines_tailOffset _ sink _ hstores]
    exact decide_eq_true hshort
  -- the cursor is behind the records dropped
  obtain ⟨before, hcut, hrecords⟩ := records_prefix s.log.dropped s.log.records (old ++ seen) rest hhist
    (by rw [← hcursor, ← hseen]; exact Nat.le_add_right _ _)
  have hoff : s.tab.tailOffset = (recordsText before).length := by
    rw [hcut, recordsText_append, List.length_append, ← hseen] at hcursor
    exact Nat.add_left_cancel hcursor
  obtain ⟨mid, rest', hrest, hentries, -, -, hnext⟩ :=
    getLines_forward _ sink _ hstores lower budget s.tab.pollRequest
    (s.tab.forward_request h.clear s.tab.tailOffset) before rest hrecords hoff
  have hfilter : s.tab.pollRequest.filter = everything := h.filter
  rw [hfilter] at hentries
  obtain ⟨ktail, ksink, kfilter, kclear⟩ :=
    pollTailDone_keeps parses s.tab s.tab.asked (s.answer sink lower budget s.tab.pollRequest)
  have hrows := buildRows_records parses _ s.tab.asked
    (s.answer sink lower budget s.tab.pollRequest) _ mid hentries (kept_everything lower _ mid)
    fun r hr => h.parses r (by rw [hhist, hrest]; simp [hr])
  refine ⟨ksink.trans h.activeSink, kfilter.trans h.filter, kclear.trans h.clear, h.parses, old,
    seen ++ mid, rest', ?_, hold, ?_, ?_⟩
  · rw [hhist, hrest]
    simp only [List.append_assoc]
  · simp only
    rw [hrows, hpolled, List.map_append]
  · intro _
    simp only
    refine ⟨?_, loaded, hloaded, hfits, ?_⟩
    rotate_left
    · simp only
      rw [Tab.pollTailDone_rows parses _ s.tab _ Row.rawJson _ htable, List.append_assoc]
    rw [ktail]
    have hnext' : (s.answer sink lower budget s.tab.pollRequest).nextOffset =
        s.tab.tailOffset + (recordsText mid).length := hnext
    rw [hnext', ← List.append_assoc, recordsText_append, List.length_append, ← hcursor, hseen, Nat.add_assoc]

/-- `loadTail` fills the table with the last records. -/
theorem loadTail_tabled (s : Live n) (hn : n = sink.maxFiles) (h : LiveInv sink parses s) :
    Tabled (s.load sink lower budget parses) s.log.history := by
  let t := s.tab.loadTail
  let d := s.answer sink lower budget t.tailRequest
  obtain ⟨hentries, -, -⟩ := getLines_backward _ sink _ (s.log.stores sink hn) lower budget t.tailRequest
    (t.since_eq h.clear) s.log.records [] (List.append_nil _).symm (.inl ⟨rfl, rfl⟩)
  have hfilter : t.tailRequest.filter = everything := h.filter
  rw [hfilter, kept_everything] at hentries
  have hpage : d.entries = (greedy weight BATCH budget (located 0 s.log.records).reverse).reverse := hentries
  have hall := greedy_append_drop weight BATCH budget (located 0 s.log.records).reverse
  rw [← List.reverse_inj, List.reverse_append, List.reverse_reverse, ← hpage] at hall
  have htexts : d.entries.map Prod.snd <:+ s.log.records.map Record.text := by
    rw [← located_texts 0 s.log.records, ← hall, List.map_append]
    exact List.suffix_append _ _
  have hlen : (d.entries.map Prod.snd).length ≤ BATCH := by
    rw [List.length_map, hpage, List.length_reverse]
    exact greedy_length weight BATCH budget _
  have hraw : (Tab.buildRows parses t.asked d).map Row.rawJson = d.entries.map Prod.snd := by
    rw [← Tab.buildRows_lines parses t.asked d fun p hp => ?_, List.map_map]
    · rfl
    · have hmem : p ∈ located 0 s.log.records := hall ▸ List.mem_append_right _ hp
      refine kept_texts_of parses (everything.matches lower) 0 s.log.records
        (fun r hr => h.parses r (List.mem_append_right _ hr)) p ?_
      rw [kept_everything]
      exact hmem
  refine ⟨d.entries.map Prod.snd, htexts.trans ?_, hlen, ?_⟩
  · rw [Log.history, List.map_append]
    exact List.suffix_append _ _
  · change ([] ++ Tab.buildRows parses t.asked d).map Row.rawJson =
      (d.entries.map Prod.snd ++ []).rtake MAX_ROWS
    rw [List.nil_append, List.append_nil, hraw, List.rtake, Nat.sub_eq_zero_of_le (hlen.trans (by decide)),
      List.drop_zero]

theorem LiveInv.load (s : Live n) (hn : n = sink.maxFiles) (h : LiveInv sink parses s) :
    LiveInv sink parses (s.load sink lower budget parses) := by
  refine ⟨h.activeSink, h.filter, h.clear, h.parses, s.log.history, [], [], ?_, rfl, rfl, ?_⟩
  · rw [List.append_nil, List.append_nil]
    rfl
  · refine fun _ => ⟨?_, loadTail_tabled sink lower budget parses s hn h⟩
    have htail := getLines_tailOffset _ sink _ (s.log.stores sink hn) lower budget s.tab.loadTail.tailRequest
    change s.log.evicted + (s.answer sink lower budget s.tab.loadTail.tailRequest).tailOffset = _
    rw [Live.answer, htail, List.append_nil, Log.history, recordsText_append, List.length_append]
    rfl

theorem LiveInv.step (s : Live n) (hn : n = sink.maxFiles) (h : LiveInv sink parses s) (a : LiveAction)
    (hwritten : a.Written parses) (hdetect : a = .poll → s.reloading = false → Detectable s) :
    LiveInv sink parses (s.step sink lower budget parses a) := by
  obtain ⟨old, seen, rest, hhist, hold, hpolled, hcursor⟩ := h.cursor
  cases a with
  | append r =>
    refine ⟨h.activeSink, h.filter, h.clear, ?_, old, seen, rest ++ [r], ?_, hold, hpolled, hcursor⟩
    · intro q hq
      have hmem : q ∈ s.log.history ++ [r] := by
        rw [← Log.history_append]
        exact hq
      cases List.mem_append.mp hmem with
      | inl hq => exact h.parses q hq
      | inr hq =>
        rw [List.mem_singleton.mp hq]
        exact hwritten
    · change (s.log.append r).history = _
      rw [Log.history_append, hhist, List.append_assoc]
  | rotate =>
    have hrotate : s.log.rotate.history = s.log.history := Log.history_rotate s.log
    refine ⟨h.activeSink, h.filter, h.clear, ?_, old, seen, rest, hrotate.trans hhist, hold, hpolled, hcursor⟩
    intro q hq
    exact h.parses q (hrotate ▸ hq)
  | poll =>
    change LiveInv sink parses (if s.reloading = true then s else s.poll sink lower budget parses)
    by_cases hre : s.reloading = true
    · rw [if_pos hre]
      exact h
    · rw [if_neg hre]
      exact h.poll sink lower budget parses s hn (Bool.eq_false_iff.mpr hre)
        (hdetect rfl (Bool.eq_false_iff.mpr hre))
  | load => exact h.load sink lower budget parses s hn

theorem LiveInv.run (s : Live n) (hn : n = sink.maxFiles) (h : LiveInv sink parses s)
    (actions : List LiveAction) (hwritten : ∀ a ∈ actions, a.Written parses)
    (hdetect : AllDetectable sink lower budget parses s actions) :
    LiveInv sink parses (s.run sink lower budget parses actions) := by
  induction actions generalizing s with
  | nil => exact h
  | cons a actions ih =>
    have hstep := h.step sink lower budget parses s hn a (hwritten a List.mem_cons_self) hdetect.1
    exact ih (s.step sink lower budget parses a) hstep
      (fun b hb => hwritten b (List.mem_cons_of_mem a hb)) hdetect.2

theorem Started.inv (s : Live n) (h : Started sink parses s) : LiveInv sink parses s := by
  refine ⟨h.activeSink, h.filter, h.clear, h.parses, s.log.history, [], [],
    by simp, h.snapshot.symm, h.polled, ?_⟩
  intro hno
  rw [h.reloading] at hno
  exact absurd hno (by decide)

/-- In every run in which each drop can be told, what polls have rendered since the last `loadTail` are the
records appended since its snapshot, from the first on, each once and whole. The table is what that `loadTail`
rendered, the last records of its snapshot, with these behind it, cut to its last `MAX_ROWS` rows. -/
theorem run_live_tail (s : Live n) (hstart : Started sink parses s) (actions : List LiveAction)
    (hwritten : ∀ a ∈ actions, a.Written parses) (hdetect : AllDetectable sink lower budget parses s actions) :
    let s' := s.run sink lower budget parses actions
    s'.polled <+: (s'.log.history.drop s'.snapshot).map Record.text ∧
      (s'.reloading = false → Tabled s' (s'.log.history.take s'.snapshot)) := by
  intro s'
  have hinv := (hstart.inv sink parses s).run sink lower budget parses s hstart.maxFiles actions hwritten
    hdetect
  obtain ⟨old, seen, rest, hhist, hold, hpolled, hcursor⟩ := hinv.cursor
  refine ⟨?_, fun hactive => ?_⟩
  · rw [hhist, hpolled, ← hold, List.append_assoc, List.drop_left, List.map_append]
    exact List.prefix_append _ _
  · rw [hhist, ← hold, List.append_assoc, List.take_left]
    exact (hcursor hactive).2

end Live

/-! ## Two runs -/

/-- A log with one record, and a tab that has just been opened. -/
def opened : Live 1 where
  log := oneRecord
  tab := ⟨oneGeneration, everything, none, [], 0, none, 0, none, 0, [], false, false, false, false⟩
  reloading := true
  snapshot := 1
  polled := []
  seenEvicted := 0

theorem opened_started : Started oneGeneration (fun _ => true) opened :=
  ⟨rfl, rfl, rfl, rfl, rfl, rfl, rfl, fun _ _ => rfl⟩

/-- A rotation that drops nothing yet. -/
theorem run_live_tail_rotated :
    let s' := opened.run oneGeneration id 100 (fun _ => true) [.load, .rotate, .append two, .poll,
      .append three, .poll]
    s'.polled <+: (s'.log.history.drop s'.snapshot).map Record.text ∧ s'.polled = [ascii "2", ascii "3"] ∧
      s'.tab.rows.map Row.rawJson = [ascii "1", ascii "2", ascii "3"] := by
  refine ⟨(run_live_tail oneGeneration id 100 (fun _ => true) opened opened_started _ ?_ ?_).1,
    by decide +kernel, by decide +kernel⟩
  · intro a _
    cases a with
    | append r => rfl
    | rotate => trivial
    | poll => trivial
    | load => trivial
  · exact ⟨nofun, nofun, nofun, fun _ _ => .inl rfl, nofun, fun _ _ => .inl rfl, trivial⟩

/-- Two rotations drop the first record, and what is appended makes up for its bytes. -/
theorem run_live_tail_masked :
    let s' := opened.run oneGeneration id 100 (fun _ => true) [.load, .rotate, .append two, .rotate,
      .append three, .poll]
    Started oneGeneration (fun _ => true) opened ∧ s'.log.history = [one, two, three] ∧ s'.snapshot = 1 ∧
      s'.tab.rows.map Row.rawJson = [ascii "1", ascii "3"] ∧
      ¬ s'.polled <+: (s'.log.history.drop s'.snapshot).map Record.text := by
  refine ⟨opened_started, rfl, rfl, by decide +kernel, by decide +kernel⟩

end Minilog.Viewer
