import Minilog.Viewer.Tab

/-! What the table shows while the files only grow: the operations of the tab, each carried to its end, with
records appended in between.

The rows are the lines of a stretch of the records that pass the filter, `topOffset` is where the stretch
starts and `tailOffset` where it ends (`Placed`). `jumpToMatch` breaks this: it takes `tail_offset` for its
cursor where `pollTailOnce` takes `next_offset`, so that the lines behind its page are skipped. As long as its
page reaches the end of the chain, there is no hole (`run_no_hole`). -/
namespace Minilog.Viewer
open Lib
set_option autoImplicit false

structure Screen (n : ℕ) where
  log : Log n
  tab : Tab

inductive ScreenAction
  | append (r : Record)
  | load
  | poll
  | older
  | jump (i : ℕ)
  | prune

section Screen

variable {n : ℕ} (sink : Sink) (lower : Bytes → Bytes) (budget : ℕ) (parses : Bytes → Bool)

namespace Screen

def answer (s : Screen n) (r : LinesRequest) : LinesResponse :=
  getLines (fun _ => s.log.directory sink) lower budget sink r

/-- The filtered line sequence of the chain. -/
def filtered (s : Screen n) : List (ℕ × Bytes) :=
  kept (s.tab.filter.matches lower) (chainLines (s.log.directory sink) sink)

def load (s : Screen n) : Screen n :=
  let t := s.tab.loadTail
  { s with tab := t.loadTailDone parses t.asked (some (s.answer sink lower budget t.tailRequest)) }

def poll (s : Screen n) : Screen n :=
  let d := s.answer sink lower budget s.tab.pollRequest
  if s.tab.regressed d = true then s.load sink lower budget parses
  else { s with tab := s.tab.pollTailDone parses s.tab.asked d }

def older (s : Screen n) : Screen n :=
  if s.tab.loadingUp = true ∨ s.tab.topOffset = 0 then s
  else
    let t := { s.tab with loadingUp := true }
    { s with tab := t.loadOlderDone parses t.asked (some (s.answer sink lower budget t.olderRequest)) }

/-- A jump to line `i` of the filtered sequence, which is what a search can find. -/
def jump (s : Screen n) (i : ℕ) : Screen n :=
  match (s.filtered sink lower)[i]? with
  | none => s
  | some p =>
    if s.tab.shows p.1 = true then s
    else
      let t := s.tab.jumpToMatch
      { s with tab := t.jumpToMatchDone parses t.asked (some (s.answer sink lower budget (t.matchRequest p.1))) }

def step (s : Screen n) : ScreenAction → Screen n
  | .append r => { s with log := s.log.append r }
  | .load => s.load sink lower budget parses
  | .poll => s.poll sink lower budget parses
  | .older => s.older sink lower budget parses
  | .jump i => s.jump sink lower budget parses i
  | .prune => { s with tab := s.tab.pruneTop }

def run (s : Screen n) (actions : List ScreenAction) : Screen n :=
  actions.foldl (step sink lower budget parses) s

/-- The lines that the next `k` polls return. -/
def polled (s : Screen n) : ℕ → List (ℕ × Bytes)
  | 0 => []
  | k + 1 =>
    (s.answer sink lower budget s.tab.pollRequest).entries ++ polled (s.poll sink lower budget parses) k

end Screen

/-- The tab has just been opened: nothing is shown, and nothing was cleared. -/
structure Fresh (s : Screen n) : Prop where
  maxFiles : n = sink.maxFiles
  clear : s.tab.clearOffset = none
  rows : s.tab.rows = []
  top : s.tab.topOffset = 0
  tail : s.tab.tailOffset = 0
  chainEnd : s.tab.chainEnd = 0
  parses : ∀ r ∈ s.log.records, parses r.text = true

def ScreenAction.Written : ScreenAction → Prop
  | .append r => parses r.text = true
  | _ => True

/-- A jump that has to fetch finds that the lines from its match on fit on one page. -/
def JumpFits (s : Screen n) : ScreenAction → Prop
  | .jump i => ∀ p, (s.filtered sink lower)[i]? = some p → s.tab.shows p.1 = false →
      FitsOnePage weight BATCH budget ((s.filtered sink lower).drop i)
  | _ => True

def AllJumpsFit (s : Screen n) : List ScreenAction → Prop
  | [] => True
  | a :: actions => JumpFits sink lower budget s a ∧ AllJumpsFit (s.step sink lower budget parses a) actions

/-- The rows are a run of the filtered lines without a gap or a repetition; `topOffset` is their start when
there are lines in front of them; and the lines behind them come with the next polls. -/
def NoHole (s : Screen n) : Prop :=
  ∃ front behind, s.filtered sink lower = front ++ s.tab.rows.map Row.line ++ behind ∧
    (s.tab.rows.map Row.offset).Pairwise (· < ·) ∧ (s.tab.rows = [] → front = []) ∧
    (front ≠ [] → s.tab.rows.head?.map Row.offset = some s.tab.topOffset) ∧
    ∃ k, s.polled sink lower budget parses k = behind

/-! ## The invariant -/

/-- The rows are the lines kept of `shown`. -/
structure Placed (keeps : Bytes → Bool) (t : Tab) (above shown : List Record) : Prop where
  lines : t.rows.map Row.line = kept keeps (located (recordsText above).length shown)
  top : t.topOffset = (recordsText above).length
  tail : t.tailOffset = (recordsText (above ++ shown)).length
  first : kept keeps (located 0 above) = [] ∨ ∃ row, t.rows.head? = some row ∧
    row.offset = (recordsText above).length

/-- The state of the screen, with the records divided into those above, those shown and those below. -/
structure ScreenInv (f : Filter) (s : Screen n) (above shown below : List Record) : Prop where
  filter : s.tab.filter = f
  clear : s.tab.clearOffset = none
  parses : ∀ r ∈ s.log.records, parses r.text = true
  records : s.log.records = above ++ shown ++ below
  chainEnd : s.tab.chainEnd ≤ (recordsText s.log.records).length
  placed : Placed (f.matches lower) s.tab above shown

/-! ## pruneTop -/

theorem Placed.dropTop (keeps : Bytes → Bool) (t : Tab) (above shown : List Record)
    (h : Placed keeps t above shown) (hlen : 2 ≤ t.rows.length) :
    ∃ above' shown', above' ++ shown' = above ++ shown ∧
    Placed keeps t.dropTop above' shown' ∧
      t.dropTop.rows.length + 1 = t.rows.length := by
  obtain ⟨x, next, rest, hrows⟩ : ∃ x next rest, t.rows = x :: next :: rest := by
    match hr : t.rows with
    | [] => rw [hr] at hlen; exact absurd hlen (by decide)
    | [_] => rw [hr] at hlen; exact absurd hlen (by simp)
    | x :: next :: rest => exact ⟨x, next, rest, rfl⟩
  have hdrop : t.dropTop = { t with
      rows := next :: rest, topOffset := next.offset, topAsked := some next.asked } := by
    unfold Tab.dropTop
    rw [hrows]
  have hlines := h.lines.symm
  rw [hrows, List.map_cons, ← List.singleton_append] at hlines
  obtain ⟨gone, left, hshown, -, hleft, hfirst⟩ := kept_located_split keeps _ shown _ _ hlines
  have hplace : next.offset = (recordsText (above ++ gone)).length := by
    rw [recordsText_append, List.length_append]
    exact hfirst next.line rfl
  refine ⟨above ++ gone, left, by rw [hshown, List.append_assoc], ?_, ?_⟩
  · rw [hdrop]
    refine ⟨?_, hplace, ?_, .inr ⟨next, rfl, hplace⟩⟩
    · rw [recordsText_append, List.length_append]
      exact hleft.symm
    · rw [List.append_assoc, ← hshown]
      exact h.tail
  · rw [hdrop, hrows]
    rfl

theorem Placed.pruneTop (keeps : Bytes → Bool) (t : Tab) (above shown : List Record)
    (h : Placed keeps t above shown) :
    ∃ above' shown', above' ++ shown' = above ++ shown ∧ Placed keeps t.pruneTop above' shown' := by
  have hdrops : ∀ m, m < t.rows.length → ∃ above' shown', above' ++ shown' = above ++ shown ∧
      Placed keeps (Nat.repeat Tab.dropTop m t) above' shown' ∧
      (Nat.repeat Tab.dropTop m t).rows.length + m = t.rows.length := by
    intro m
    induction m with
    | zero => exact fun _ => ⟨above, shown, rfl, h, rfl⟩
    | succ m ih =>
      intro hm
      obtain ⟨above', shown', hsame, hplaced, hlen⟩ := ih (by omega)
      obtain ⟨above'', shown'', hsame', hplaced', hlen'⟩ := hplaced.dropTop keeps _ above' shown' (by omega)
      refine ⟨above'', shown'', hsame'.trans hsame, hplaced', ?_⟩
      change (Nat.repeat Tab.dropTop m t).dropTop.rows.length + (m + 1) = _
      omega
  by_cases hmax : t.rows.length ≤ MAX_ROWS
  · rw [Tab.pruneTop, Nat.sub_eq_zero_of_le hmax]
    exact ⟨above, shown, rfl, h⟩
  · have hpos : 0 < MAX_ROWS := by decide
    obtain ⟨above', shown', hsame, hplaced, -⟩ := hdrops (t.rows.length - MAX_ROWS) (by omega)
    exact ⟨above', shown', hsame, hplaced⟩

/-! ## The steps -/

variable (f : Filter)

theorem ScreenInv.poll (s : Screen n) (hn : n = sink.maxFiles) (above shown below : List Record)
    (h : ScreenInv lower parses f s above shown below) :
    let d := s.answer sink lower budget s.tab.pollRequest
    let wanted := fun qs => kept (f.matches lower) (located (recordsText (above ++ shown)).length qs)
    ∃ mid rest above' shown', below = mid ++ rest ∧ d.entries = wanted mid ∧
      d.entries = greedy weight BATCH budget (wanted below) ∧
      above' ++ shown' = above ++ shown ++ mid ∧
      ScreenInv lower parses f (s.poll sink lower budget parses) above' shown' rest := by
  intro d wanted
  have hstores := s.log.stores sink hn
  have htotal : d.tailOffset = (recordsText s.log.records).length :=
    getLines_tailOffset _ sink _ hstores lower budget _
  have hkeep : ¬ s.tab.regressed d = true := by
    unfold Tab.regressed
    rw [decide_eq_true_eq, htotal]
    exact Nat.not_lt.mpr h.chainEnd
  obtain ⟨mid, rest, hbelow, hentries, hgreedy, hlines, hnext⟩ :=
    getLines_forward _ sink _ hstores lower budget s.tab.pollRequest
    (s.tab.forward_request h.clear s.tab.tailOffset) (above ++ shown) below h.records h.placed.tail
  have hoffset : s.tab.pollRequest.offset = (recordsText (above ++ shown)).length := h.placed.tail
  have hfilter : s.tab.pollRequest.filter = f := h.filter
  rw [hoffset, hfilter] at hentries hgreedy
  have hrows : (Tab.buildRows parses s.tab.asked d).map Row.line = wanted mid := by
    have hparses : ∀ p ∈ d.entries, parses p.2 = true := by
      intro p hp
      apply kept_texts_of parses (f.matches lower) _ mid _ p (hentries ▸ hp)
      intro r hr
      apply h.parses
      rw [h.records, hbelow]
      simp [hr]
    rw [Tab.buildRows_lines parses _ d hparses]
    exact hentries
  -- what the poll does before it prunes
  let t : Tab := { s.tab with
    chainEnd := d.tailOffset, tailOffset := d.nextOffset, tailAsked := some s.tab.asked
    rows := s.tab.rows ++ Tab.buildRows parses s.tab.asked d }
  have hplaced : Placed (f.matches lower) t above (shown ++ mid) := by
    refine ⟨?_, h.placed.top, ?_, ?_⟩
    · change (s.tab.rows ++ Tab.buildRows parses s.tab.asked d).map Row.line = _
      rw [List.map_append, h.placed.lines, hrows, located_append, kept_append]
      simp only [wanted]
      rw [recordsText_append, List.length_append]
    · change d.nextOffset = _
      have hnext' : d.nextOffset = s.tab.pollRequest.offset + (recordsText mid).length := hnext
      rw [hnext', hoffset, ← List.append_assoc, recordsText_append (above ++ shown), List.length_append]
    · cases h.placed.first with
      | inl hnone => exact .inl hnone
      | inr hrow =>
        obtain ⟨row, hhead, hoff⟩ := hrow
        refine .inr ⟨row, ?_, hoff⟩
        change (s.tab.rows ++ _).head? = _
        rw [List.head?_append, hhead]
        rfl
  have hrecords : ∀ above' shown', above' ++ shown' = above ++ (shown ++ mid) →
      s.log.records = above' ++ shown' ++ rest := by
    intro above' shown' hsame
    rw [h.records, hbelow, hsame]
    simp only [List.append_assoc]
  have hend : d.tailOffset ≤ (recordsText s.log.records).length := Nat.le_of_eq htotal
  have hpoll : s.poll sink lower budget parses =
      { s with tab := s.tab.pollTailDone parses s.tab.asked d } := if_neg hkeep
  rw [hpoll]
  by_cases hnone : d.lines.length = 0
  · have hempty : d.entries = [] := by
      have hls : d.lines = d.entries.map Prod.snd := hlines
      rw [hls, List.length_map] at hnone
      exact List.length_eq_zero_iff.mp hnone
    have hsame : t.rows = s.tab.rows := by
      change s.tab.rows ++ Tab.buildRows parses s.tab.asked d = s.tab.rows
      unfold Tab.buildRows
      rw [hempty]
      exact List.append_nil _
    have hdone : s.tab.pollTailDone parses s.tab.asked d =
        { s.tab with chainEnd := d.tailOffset, tailOffset := d.nextOffset, tailAsked := some s.tab.asked } :=
      if_pos hnone
    refine ⟨mid, rest, above, shown ++ mid, hbelow, hentries, hgreedy, by rw [List.append_assoc], ?_⟩
    rw [hdone]
    refine ⟨h.filter, h.clear, h.parses, hrecords _ _ rfl, hend, ?_⟩
    obtain ⟨hl, htop, htail, hfirst⟩ := hplaced
    rw [hsame] at hl hfirst
    exact ⟨hl, htop, htail, hfirst⟩
  · obtain ⟨above', shown', hsame, hpruned⟩ := hplaced.pruneTop _ t above (shown ++ mid)
    obtain ⟨rows, top, who, hframe, -⟩ := Tab.pruneTop_frame t
    have hdone : s.tab.pollTailDone parses s.tab.asked d = t.pruneTop := if_neg hnone
    refine ⟨mid, rest, above', shown', hbelow, hentries, hgreedy, by rw [hsame, List.append_assoc], ?_⟩
    rw [hdone]
    rw [hframe] at hpruned ⊢
    exact ⟨h.filter, h.clear, h.parses, hrecords _ _ hsame, hend, hpruned⟩

theorem rows_head (rows : List Row) (p : ℕ × Bytes) (l : List (ℕ × Bytes)) (h : rows.map Row.line = p :: l) :
    ∃ row, rows.head? = some row ∧ row.offset = p.1 := by
  cases rows with
  | nil => exact absurd h (by simp)
  | cons row rows =>
    rw [List.map_cons, List.cons_eq_cons] at h
    exact ⟨row, rfl, congrArg Prod.fst h.1⟩

/-- The last page of `before`: either it keeps no line, or the page holds the lines of its last records, from
the page's first line on. -/
structure LastPage (d : LinesResponse) (keeps : Bytes → Bool) (before above shown : List Record) : Prop where
  split : before = above ++ shown
  entries : d.entries = kept keeps (located (recordsText above).length shown)
  first : d.firstOffset = (recordsText above).length
  start : kept keeps (located 0 above) = [] ∧ d.entries = [] ∨ ∃ p l, d.entries = p :: l ∧
    p.1 = (recordsText above).length
  lines : d.lines = d.entries.map Prod.snd
  rows : ∀ a, (Tab.buildRows parses a d).map Row.line = d.entries

theorem backward_page (s : Screen n) (hn : n = sink.maxFiles) (r : LinesRequest) (hfilter : r.filter = f)
    (hcount : r.count = BATCH) (hsince : r.since = -1) (before behind : List Record)
    (hrecords : s.log.records = before ++ behind) (hparses : ∀ q ∈ s.log.records, parses q.text = true)
    (hr : r.tail = true ∧ behind = [] ∨ r.tail = false ∧ r.dir = .backward ∧
      r.offset = (recordsText before).length) :
    ∃ above shown, LastPage parses (s.answer sink lower budget r) (f.matches lower) before above shown := by
  let d := s.answer sink lower budget r
  obtain ⟨hentries, hlines, hfirst⟩ :=
    getLines_backward _ sink _ (s.log.stores sink hn) lower budget r hsince before behind hrecords hr
  rw [hfilter, hcount] at hentries
  have hpage : d.entries = (greedy weight BATCH budget
      (kept (f.matches lower) (located 0 before)).reverse).reverse := hentries
  have hstart : d.firstOffset = startOf (recordsText before).length d.entries := hfirst
  have hall := greedy_append_drop weight BATCH budget (kept (f.matches lower) (located 0 before)).reverse
  rw [← List.reverse_inj, List.reverse_append, List.reverse_reverse, ← hpage] at hall
  have hrows : ∀ a, (Tab.buildRows parses a d).map Row.line = d.entries := by
    intro a
    apply Tab.buildRows_lines
    intro p hp
    apply kept_texts_of parses (f.matches lower) 0 before _ p
    · rw [← hall]
      exact List.mem_append_right _ hp
    · intro q hq
      apply hparses
      rw [hrecords]
      exact List.mem_append_left _ hq
  cases hd : d.entries with
  | nil =>
    have hnone : kept (f.matches lower) (located 0 before) = [] := by
      rw [hd] at hpage
      have hempty := List.reverse_eq_nil_iff.mp hpage.symm
      exact List.reverse_eq_nil_iff.mp ((greedy_eq_nil weight BATCH budget one_le_BATCH _).mp hempty)
    rw [hd] at hstart
    exact ⟨before, [], (List.append_nil _).symm, hd, hstart, .inl ⟨hnone, hd⟩, hlines, hrows⟩
  | cons p l =>
    rw [hd] at hall hstart
    obtain ⟨above, shown, hsplit, -, hshown, hp⟩ := kept_located_split _ 0 _ _ _ hall.symm
    have hp : p.1 = (recordsText above).length := (hp p rfl).trans (Nat.zero_add _)
    rw [Nat.zero_add] at hshown
    exact ⟨above, shown, hsplit, hd.trans hshown.symm, hstart.trans hp, .inr ⟨p, l, hd, hp⟩, hlines, hrows⟩

theorem ScreenInv.load (s : Screen n) (hn : n = sink.maxFiles) (hfilter : s.tab.filter = f)
    (hclear : s.tab.clearOffset = none) (hparses : ∀ r ∈ s.log.records, parses r.text = true) :
    ∃ above shown, ScreenInv lower parses f (s.load sink lower budget parses) above shown [] := by
  let t := s.tab.loadTail
  let d := s.answer sink lower budget t.tailRequest
  obtain ⟨above, shown, hpage⟩ := backward_page sink lower budget parses f s hn t.tailRequest hfilter rfl
    (t.since_eq hclear) s.log.records [] (List.append_nil _).symm hparses (.inl ⟨rfl, rfl⟩)
  have htotal : d.tailOffset = (recordsText s.log.records).length :=
    getLines_tailOffset _ sink _ (s.log.stores sink hn) lower budget _
  refine ⟨above, shown, hfilter, hclear, hparses,
    by rw [List.append_nil]; exact hpage.split, Nat.le_of_eq htotal, ?_, hpage.first, ?_, ?_⟩
  · exact (hpage.rows t.asked).trans hpage.entries
  · rw [← hpage.split]
    exact htotal
  · cases hpage.start with
    | inl hnone => exact .inl hnone.1
    | inr hsome =>
      obtain ⟨p, l, hd, hp⟩ := hsome
      obtain ⟨row, hrow, hoff⟩ := rows_head _ p l ((hpage.rows t.asked).trans hd)
      exact .inr ⟨row, hrow, hoff.trans hp⟩

theorem ScreenInv.older (s : Screen n) (hn : n = sink.maxFiles) (above shown below : List Record)
    (h : ScreenInv lower parses f s above shown below) :
    ∃ above' shown', ScreenInv lower parses f (s.older sink lower budget parses) above' shown' below := by
  unfold Screen.older
  by_cases hguard : s.tab.loadingUp = true ∨ s.tab.topOffset = 0
  · rw [if_pos hguard]
    exact ⟨above, shown, h⟩
  rw [if_neg hguard]
  let t : Tab := { s.tab with loadingUp := true }
  let d := s.answer sink lower budget t.olderRequest
  obtain ⟨above', gone, hpage⟩ := backward_page sink lower budget parses f s hn t.olderRequest h.filter rfl
    (t.since_eq h.clear) above (shown ++ below) (by rw [h.records, List.append_assoc]) h.parses
    (.inr ⟨rfl, rfl, h.placed.top⟩)
  change ∃ above' shown', ScreenInv lower parses f
    { s with tab := t.loadOlderDone parses t.asked (some d) } above' shown' below
  have hlines : d.lines = d.entries.map Prod.snd := hpage.lines
  unfold Tab.loadOlderDone
  simp only
  cases hpage.start with
  | inl hnone =>
    have hempty : d.entries = [] := hnone.2
    rw [hlines, hempty, if_neg (by simp)]
    exact ⟨above, shown, h.filter, h.clear, h.parses, h.records, h.chainEnd, h.placed.lines, h.placed.top,
      h.placed.tail, h.placed.first⟩
  | inr hsome =>
    obtain ⟨p, l, hd, hp⟩ := hsome
    have hd' : d.entries = p :: l := hd
    rw [if_pos (by rw [hlines, hd']; simp)]
    obtain ⟨row, hrow, hoff⟩ := rows_head _ p l ((hpage.rows t.asked).trans hd)
    refine ⟨above', gone ++ shown, h.filter, h.clear, h.parses, ?_, h.chainEnd, ?_, hpage.first, ?_,
      .inr ⟨row, ?_, hoff.trans hp⟩⟩
    · change s.log.records = _
      rw [h.records, hpage.split]
      simp only [List.append_assoc]
    · change (Tab.buildRows parses t.asked d ++ s.tab.rows).map Row.line = _
      rw [List.map_append, hpage.rows t.asked, hpage.entries, h.placed.lines, located_append, kept_append,
        hpage.split, recordsText_append, List.length_append]
    · rw [← List.append_assoc, ← hpage.split]
      exact h.placed.tail
    · change (Tab.buildRows parses t.asked d ++ s.tab.rows).head? = _
      rw [List.head?_append, hrow]
      rfl

theorem filtered_eq (s : Screen n) (hn : n = sink.maxFiles) :
    s.filtered sink lower = kept (s.tab.filter.matches lower) (located 0 s.log.records) :=
  (s.log.stores sink hn).kept_lines _ sink _ _

theorem ScreenInv.jump (s : Screen n) (hn : n = sink.maxFiles) (above shown below : List Record)
    (h : ScreenInv lower parses f s above shown below) (i : ℕ)
    (hfits : JumpFits sink lower budget s (.jump i)) :
    ∃ above' shown' below', ScreenInv lower parses f
    (s.jump sink lower budget parses i) above' shown' below' := by
  unfold Screen.jump
  cases hi : (s.filtered sink lower)[i]? with
  | none => exact ⟨above, shown, below, h⟩
  | some p =>
    simp only
    by_cases hshows : s.tab.shows p.1 = true
    · rw [if_pos hshows]
      exact ⟨above, shown, below, h⟩
    rw [if_neg hshows]
    have hfits := hfits p hi (Bool.eq_false_iff.mpr hshows)
    have hstores := s.log.stores sink hn
    let t := s.tab.jumpToMatch
    let d := s.answer sink lower budget (t.matchRequest p.1)
    have hhead : ((s.filtered sink lower).drop i).head? = some p := by rw [List.head?_drop, hi]
    have hcut := filtered_eq sink lower s hn
    rw [h.filter, ← List.take_append_drop i (s.filtered sink lower)] at hcut
    obtain ⟨above', shown', hrecords, -, hshown, hstart⟩ := kept_located_split _ 0 _ _ _ hcut.symm
    have hp : p.1 = (recordsText above').length := (hstart p hhead).trans (Nat.zero_add _)
    rw [Nat.zero_add] at hshown
    obtain ⟨mid, rest, -, -, hgreedy, -, -⟩ :=
      getLines_forward _ sink _ hstores lower budget (t.matchRequest p.1)
      (t.forward_request h.clear p.1) above' shown' hrecords hp
    have hoffset : (t.matchRequest p.1).offset = (recordsText above').length := hp
    have hrfilter : (t.matchRequest p.1).filter = f := h.filter
    have hrcount : (t.matchRequest p.1).count = BATCH := rfl
    rw [hoffset, hrfilter, hrcount] at hgreedy
    simp only [hshown] at hgreedy
    rw [greedy_all weight BATCH budget _ hfits] at hgreedy
    have hentries : d.entries = (s.filtered sink lower).drop i := hgreedy
    have hrows : (Tab.buildRows parses t.asked d).map Row.line = (s.filtered sink lower).drop i := by
      rw [Tab.buildRows_lines, hentries]
      intro q hq
      rw [hentries, ← hshown] at hq
      apply kept_texts_of parses (f.matches lower) _ shown' _ q hq
      intro r hr
      apply h.parses
      rw [hrecords]
      simp [hr]
    have hfirst : d.firstOffset = p.1 :=
      getLines_first (s.log.directory sink) sink lower budget (t.matchRequest p.1) ⟨rfl,
        rfl⟩ p (hentries ▸ hhead)
    have htotal : d.tailOffset = (recordsText s.log.records).length :=
      getLines_tailOffset _ sink _ hstores lower budget _
    obtain ⟨l, hl⟩ : ∃ l, (s.filtered sink lower).drop i = p :: l := List.head?_eq_some_iff.mp hhead
    obtain ⟨row, hrow, hoff⟩ := rows_head _ p l (hrows.trans hl)
    refine ⟨above', shown', [], h.filter, h.clear, h.parses,
      by rw [List.append_nil]; exact hrecords, Nat.le_of_eq htotal, ?_, ?_, ?_, .inr ⟨row, hrow, hoff.trans hp⟩⟩
    · rw [hshown]
      exact hrows
    · exact hfirst.trans hp
    · rw [← hrecords]
      exact htotal

theorem ScreenInv.prune (s : Screen n) (above shown below : List Record)
    (h : ScreenInv lower parses f s above shown below) :
    ∃ above' shown', ScreenInv lower parses f { s with tab := s.tab.pruneTop } above' shown' below := by
  obtain ⟨above', shown', hsame, hpruned⟩ := h.placed.pruneTop _ s.tab above shown
  obtain ⟨rows, top, who, hframe, -⟩ := Tab.pruneTop_frame s.tab
  refine ⟨above', shown', ?_⟩
  rw [hframe] at hpruned ⊢
  exact ⟨h.filter, h.clear, h.parses, by rw [hsame]; exact h.records, h.chainEnd, hpruned⟩

theorem ScreenInv.append (s : Screen n) (above shown below : List Record)
    (h : ScreenInv lower parses f s above shown below) (r : Record) (hr : parses r.text = true) :
    ScreenInv lower parses f { s with log := s.log.append r } above shown (below ++ [r]) := by
  have hrecords := Log.records_append s.log r
  refine ⟨h.filter, h.clear, ?_, ?_, ?_, h.placed⟩
  · intro q hq
    change q ∈ (s.log.append r).records at hq
    rw [hrecords] at hq
    cases List.mem_append.mp hq with
    | inl hq => exact h.parses q hq
    | inr hq =>
      rw [List.mem_singleton.mp hq]
      exact hr
  · change (s.log.append r).records = _
    rw [hrecords, h.records]
    simp only [List.append_assoc]
  · change s.tab.chainEnd ≤ (recordsText (s.log.append r).records).length
    rw [hrecords, recordsText_append, List.length_append]
    exact Nat.le_add_right_of_le h.chainEnd

theorem ScreenInv.step (s : Screen n) (hn : n = sink.maxFiles) (above shown below : List Record)
    (h : ScreenInv lower parses f s above shown below) (a : ScreenAction) (hwritten : a.Written parses)
    (hfits : JumpFits sink lower budget s a) :
    ∃ above' shown' below', ScreenInv lower parses f
    (s.step sink lower budget parses a) above' shown' below' := by
  cases a with
  | append r => exact ⟨above, shown, below ++ [r], h.append lower parses f s above shown below r hwritten⟩
  | load =>
    obtain ⟨above', shown', h'⟩ := ScreenInv.load sink lower budget parses f s hn h.filter h.clear h.parses
    exact ⟨above', shown', [], h'⟩
  | poll =>
    obtain ⟨mid, rest, above', shown', -, -, -, -, h'⟩ :=
      h.poll sink lower budget parses f s hn above shown below
    exact ⟨above', shown', rest, h'⟩
  | older =>
    obtain ⟨above', shown', h'⟩ := h.older sink lower budget parses f s hn above shown below
    exact ⟨above', shown', below, h'⟩
  | jump i => exact h.jump sink lower budget parses f s hn above shown below i hfits
  | prune =>
    obtain ⟨above', shown', h'⟩ := h.prune lower parses f s above shown below
    exact ⟨above', shown', below, h'⟩

theorem ScreenInv.run (s : Screen n) (hn : n = sink.maxFiles) (above shown below : List Record)
    (h : ScreenInv lower parses f s above shown below) (actions : List ScreenAction)
    (hwritten : ∀ a ∈ actions, a.Written parses) (hfits : AllJumpsFit sink lower budget parses s actions) :
    ∃ above' shown' below', ScreenInv lower parses f
    (s.run sink lower budget parses actions) above' shown' below' := by
  induction actions generalizing s above shown below with
  | nil => exact ⟨above, shown, below, h⟩
  | cons a actions ih =>
    obtain ⟨above', shown', below', h'⟩ :=
      h.step sink lower budget parses f s hn above shown below a (hwritten a List.mem_cons_self) hfits.1
    exact ih _ above' shown' below' h' (fun b hb => hwritten b (List.mem_cons_of_mem a hb)) hfits.2

/-! ## What the invariant says -/

/-- Polls return the lines below one page after the other. -/
theorem ScreenInv.polled (s : Screen n) (hn : n = sink.maxFiles) (above shown below : List Record)
    (h : ScreenInv lower parses f s above shown below) :
    ∃ k, s.polled sink lower budget parses k =
      kept (f.matches lower) (located (recordsText (above ++ shown)).length below) := by
  induction hlen : below.length using Nat.strongRecOn generalizing s above shown below with
  | ind m ih =>
    by_cases hnone : kept (f.matches lower) (located (recordsText (above ++ shown)).length below) = []
    · exact ⟨0, hnone.symm⟩
    obtain ⟨mid, rest, above', shown', hbelow, hentries, hgreedy, hsame, h'⟩ :=
      h.poll sink lower budget parses f s hn above shown below
    have hmid : 0 < mid.length := by
      apply List.length_pos_iff.mpr
      intro hnil
      rw [hnil] at hentries
      rw [hentries] at hgreedy
      exact hnone ((greedy_eq_nil weight BATCH budget one_le_BATCH _).mp hgreedy.symm)
    have hshort : rest.length < m := by
      rw [← hlen, hbelow, List.length_append]
      omega
    obtain ⟨k, hk⟩ := ih rest.length hshort _ above' shown' rest h' rfl
    refine ⟨k + 1, ?_⟩
    rw [Screen.polled, hk, hentries, hbelow, located_append, kept_append, hsame,
      recordsText_append (above ++ shown), List.length_append]

theorem ScreenInv.noHole (s : Screen n) (hn : n = sink.maxFiles) (above shown below : List Record)
    (h : ScreenInv lower parses f s above shown below) : NoHole sink lower budget parses s := by
  have hrows := h.placed.lines
  refine ⟨kept (f.matches lower) (located 0 above),
    kept (f.matches lower) (located (recordsText (above ++ shown)).length below), ?_, ?_, ?_, ?_,
    h.polled sink lower budget parses f s hn above shown below⟩
  · rw [filtered_eq sink lower s hn, h.filter, h.records, hrows, located_append, located_append,
      kept_append, kept_append, Nat.zero_add, Nat.zero_add]
  · have hoffsets : s.tab.rows.map Row.offset = (s.tab.rows.map Row.line).map Prod.fst := by
      rw [List.map_map]
      rfl
    rw [hoffsets, hrows, List.pairwise_map]
    exact (located_pairwise _ shown).sublist List.filter_sublist
  · intro hnil
    cases h.placed.first with
    | inl hnone => exact hnone
    | inr hrow =>
      obtain ⟨row, hhead, -⟩ := hrow
      rw [hnil] at hhead
      exact absurd hhead (by simp)
  · intro hfront
    obtain ⟨row, hhead, hoff⟩ := h.placed.first.resolve_left hfront
    rw [hhead, h.placed.top, ← hoff]
    rfl

theorem Fresh.inv (s : Screen n) (h : Fresh sink parses s) :
    ScreenInv lower parses s.tab.filter s [] [] s.log.records := by
  refine ⟨rfl, h.clear, h.parses, rfl, by rw [h.chainEnd]; exact Nat.zero_le _, ?_, h.top, h.tail, .inl rfl⟩
  rw [h.rows]
  rfl

/-- In every run in which each jump that fetches reaches the end of the chain with its page, the rows have no
hole. -/
theorem run_no_hole (s : Screen n) (hfresh : Fresh sink parses s) (actions : List ScreenAction)
    (hwritten : ∀ a ∈ actions, a.Written parses) (hfits : AllJumpsFit sink lower budget parses s actions) :
    NoHole sink lower budget parses (s.run sink lower budget parses actions) := by
  obtain ⟨above, shown, below, h⟩ :=
    (hfresh.inv sink lower parses s).run sink lower budget parses s.tab.filter s hfresh.maxFiles []
    [] s.log.records actions hwritten hfits
  exact h.noHole sink lower budget parses s.tab.filter _ hfresh.maxFiles above shown below

end Screen

/-! ## Two runs -/

/-- A log with one record, and a tab that has just been opened. -/
def quiet : Screen 1 where
  log := oneRecord
  tab := ⟨oneGeneration, everything, none, [], 0, none, 0, none, 0, [], false, false, false, false⟩

theorem quiet_fresh : Fresh oneGeneration (fun _ => true) quiet :=
  ⟨rfl, rfl, rfl, rfl, rfl, rfl, fun _ _ => rfl⟩

/-- A jump to a record that no poll has brought yet. -/
theorem run_no_hole_jump :
    let s := quiet.run oneGeneration id 100 (fun _ => true) [.load, .append two, .jump 1, .append three,
      .poll, .older]
    NoHole oneGeneration id 100 (fun _ => true) s ∧ s.tab.rows.map Row.rawJson = [ascii "1", ascii "2",
      ascii "3"] := by
  refine ⟨run_no_hole oneGeneration id 100 (fun _ => true) quiet quiet_fresh _ ?_ ?_, by decide +kernel⟩
  · intro a _
    cases a with
    | append r => rfl
    | load => trivial
    | poll => trivial
    | older => trivial
    | jump i => trivial
    | prune => trivial
  · refine ⟨trivial, trivial, ?_, trivial, trivial, trivial, trivial⟩
    exact fun _ _ _ => ⟨by decide +kernel, .inl (by decide +kernel)⟩

/-- A burst is written, and a search finds its first record before a poll has brought it. -/
def skipped : Screen 1 :=
  quiet.run oneGeneration id (8 * 1024 * 1024) (fun _ => true)
    ([.load] ++ List.replicate 202 (.append two) ++ [.jump 1, .append three, .poll])

/-- The page of the jump holds 200 records of the burst and the cursor goes to its end: the last two are not
shown, while the next record is. -/
theorem run_no_hole_skipped :
    Fresh oneGeneration (fun _ => true) quiet ∧
    ¬ NoHole oneGeneration id (8 * 1024 * 1024) (fun _ => true) skipped := by
  refine ⟨quiet_fresh, ?_⟩
  intro hno
  obtain ⟨front, behind, hsplit, -⟩ := hno
  have hinfix : skipped.tab.rows.map Row.line <:+: skipped.filtered oneGeneration id :=
    ⟨front, behind, hsplit.symm⟩
  exact absurd hinfix (by decide +kernel)

end Minilog.Viewer
