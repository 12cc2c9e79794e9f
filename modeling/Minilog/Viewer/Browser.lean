import Minilog.Viewer.Tab

/-! The tab with requests in flight: the user acts, the timer ticks, and answers arrive in any order and with
any content.

`polling` keeps two polls apart and `loadingUp` two scrolls, but an answer is committed whatever the user has
selected since its request. The table is right as long as none that changes it comes late (`run_current`). -/
namespace Minilog.Viewer
open Lib
set_option autoImplicit false

/-- Which function waits for the answer; a `loadTail` may have been called by a poll, which waits with it. -/
inductive FetchKind
  | load (fromPoll : Bool)
  | poll
  | older
  | jump
deriving DecidableEq

structure Fetch where
  kind : FetchKind
  asked : Asked
deriving DecidableEq

structure Browser where
  tab : Tab
  fetches : List Fetch
deriving DecidableEq

inductive BrowserAction
  | changeSink (s : Sink)
  | changeFilter (f : Filter)
  | clear
  | jumpTail
  | found (results : List ℕ)
  | jumpMatch (idx : ℤ)
  | tick
  | scrollUp
  | arrive (i : ℕ) (d : Option LinesResponse)

section Browser

variable (parses : Bytes → Bool)

namespace Browser

def send (b : Browser) (kind : FetchKind) : Browser := { b with fetches := b.fetches ++ [⟨kind, b.tab.asked⟩] }

def loadTail (b : Browser) (fromPoll : Bool) : Browser := send { b with tab := b.tab.loadTail } (.load fromPoll)

def jumpToMatch (b : Browser) (idx : ℤ) : Browser :=
  match b.tab.searchMatches[(idx % (b.tab.searchMatches.length : ℤ)).toNat]? with
  | none => b
  | some offset => if b.tab.shows offset = true then b else send { b with tab := b.tab.jumpToMatch } .jump

/-- `pollTail` up to its request. -/
def tick (b : Browser) : Browser :=
  if b.tab.pollTimer = true ∧ b.tab.polling = false
    then send { b with tab := { b.tab with polling := true } } .poll else b

/-- The observer calls `loadOlder`. -/
def scrollUp (b : Browser) : Browser :=
  if b.tab.topObserver = true ∧ b.tab.loadingUp = false ∧ b.tab.topOffset ≠ 0 then
    send { b with tab := { b.tab with loadingUp := true } } .older
  else b

/-- What is done with the answer to a request, or with its failure. -/
def commit (b : Browser) (f : Fetch) (d : Option LinesResponse) : Browser :=
  match f.kind with
  | .load fromPoll =>
    let t := b.tab.loadTailDone parses f.asked d
    { b with tab := if fromPoll then { t with polling := false } else t }
  | .poll =>
    match d with
    | none => { b with tab := { b.tab with polling := false } }
    | some d =>
      if b.tab.regressed d = true then b.loadTail true
      else { b with tab := { b.tab.pollTailDone parses f.asked d with polling := false } }
  | .older => { b with tab := b.tab.loadOlderDone parses f.asked d }
  | .jump => { b with tab := b.tab.jumpToMatchDone parses f.asked d }

def step (b : Browser) : BrowserAction → Browser
  | .changeSink s => send { b with tab := b.tab.changeSink s } (.load false)
  | .changeFilter f => send { b with tab := b.tab.changeFilter f } (.load false)
  | .clear => { b with tab := b.tab.clearView }
  | .jumpTail => b.loadTail false
  | .found results => { b with tab := { b.tab with searchMatches := results } }
  | .jumpMatch idx => b.jumpToMatch idx
  | .tick => b.tick
  | .scrollUp => b.scrollUp
  | .arrive i d =>
    match b.fetches[i]? with
    | none => b
    | some f => commit parses { b with fetches := b.fetches.eraseIdx i } f d

def run (b : Browser) (actions : List BrowserAction) : Browser := actions.foldl (step parses) b

end Browser

/-! ## Answers in time -/

/-- The answers of `loadTail` and `jumpToMatch` set both cursors. -/
def Fetch.Resets (f : Fetch) : Prop :=
  match f.kind with
  | .load _ => True
  | .jump => True
  | _ => False

/-- A request that will set both cursors for what is selected. -/
def Pending (t : Tab) (fetches : List Fetch) : Prop := ∃ g ∈ fetches, g.Resets ∧ g.asked = t.asked

theorem Pending.same_asked (t t' : Tab) (hasked : t'.asked = t.asked) (fetches : List Fetch)
    (h : Pending t fetches) :
    Pending t' fetches := by
  unfold Pending
  rw [hasked]
  exact h

/-- The lower cursor came from an answer about the sink selected. -/
def Tab.OwnTail (t : Tab) : Prop := ∃ a, t.tailAsked = some a ∧ a.sink = t.activeSink

/-- So did the upper one, which is 0 until an answer sets it. -/
def Tab.OwnTop (t : Tab) : Prop :=
  t.topAsked = none ∧ t.topOffset = 0 ∨ ∃ a, t.topAsked = some a ∧ a.sink = t.activeSink

/-- The answer changes the table or a cursor: a poll that finds the chain shorter only reloads, and a scroll
that finds nothing leaves all as it is. -/
def Fetch.Commits (f : Fetch) (t : Tab) (d : LinesResponse) : Prop :=
  match f.kind with
  | .load _ => True
  | .poll => t.regressed d = false
  | .older => 0 < d.lines.length
  | .jump => True

/-- An answer that is committed was asked for the sink and the filter selected now, or it brings no row, and
its cursors are of this sink or about to be replaced. A request that would replace them fails only when they
are of this sink already or another one is under way. -/
def Timely (b : Browser) : BrowserAction → Prop
  | .arrive i d => ∀ f, b.fetches[i]? = some f →
      (∀ e, d = some e → f.Commits b.tab e → f.asked = b.tab.asked ∨
        Tab.buildRows parses f.asked e = [] ∧
        (f.asked.sink = b.tab.activeSink ∨ Pending b.tab (b.fetches.eraseIdx i))) ∧
      (d = none → f.Resets → f.asked = b.tab.asked → b.tab.OwnTop ∧ b.tab.OwnTail ∨
        Pending b.tab (b.fetches.eraseIdx i))
  | _ => True

def AllTimely (b : Browser) : List BrowserAction → Prop
  | [] => True
  | a :: actions => Timely parses b a ∧ AllTimely (b.step parses a) actions

def Tab.OwnRows (t : Tab) : Prop := ∀ row ∈ t.rows, row.asked = t.asked

/-! ## The invariant -/

structure BrowserInv (b : Browser) : Prop where
  rows : b.tab.OwnRows
  cursors : b.tab.OwnTop ∧ b.tab.OwnTail ∨ Pending b.tab b.fetches

theorem ownRows_nil (t : Tab) (hrows : t.rows = []) : t.OwnRows := by
  unfold Tab.OwnRows
  rw [hrows]
  exact fun row h => absurd h List.not_mem_nil

theorem buildRows_asked (a : Asked) (d : LinesResponse) : ∀ row ∈ Tab.buildRows parses a d, row.asked = a := by
  intro row hrow
  obtain ⟨p, -, hp⟩ := List.mem_map.mp hrow
  rw [← hp]

/-- The rows of an answer in time. -/
theorem buildRows_own (t : Tab) (a : Asked) (d : LinesResponse)
    (h : a = t.asked ∨ Tab.buildRows parses a d = []) :
    ∀ row ∈ Tab.buildRows parses a d, row.asked = t.asked := by
  intro row hrow
  cases h with
  | inl ha => exact (buildRows_asked parses a d row hrow).trans ha
  | inr hnone =>
    rw [hnone] at hrow
    exact absurd hrow List.not_mem_nil

theorem Tab.OwnRows.append (t : Tab) (h : t.OwnRows) (rows : List Row)
    (hrows : ∀ row ∈ rows, row.asked = t.asked) :
    ∀ row ∈ t.rows ++ rows, row.asked = t.asked := by
  intro row hrow
  cases List.mem_append.mp hrow with
  | inl hrow => exact h row hrow
  | inr hrow => exact hrows row hrow

theorem ownTop_dropTop (t : Tab) (hrows : t.OwnRows) (htop : t.OwnTop) :
    t.dropTop.OwnRows ∧ t.dropTop.OwnTop := by
  unfold Tab.dropTop
  split
  · exact ⟨hrows, htop⟩
  · exact ⟨ownRows_nil _ rfl, htop⟩
  · rename_i x next rest hcons
    have hmem : ∀ row ∈ next :: rest, row.asked = t.asked := by
      intro row hrow
      apply hrows
      rw [hcons]
      exact List.mem_cons_of_mem x hrow
    refine ⟨hmem, .inr ⟨next.asked, rfl, ?_⟩⟩
    rw [hmem next List.mem_cons_self]
    rfl

theorem ownTop_pruneTop (t : Tab) (hrows : t.OwnRows) (htop : t.OwnTop) : t.pruneTop.OwnTop := by
  have hall : t.pruneTop.OwnRows ∧ t.pruneTop.OwnTop := by
    unfold Tab.pruneTop
    generalize t.rows.length - MAX_ROWS = m
    induction m with
    | zero => exact ⟨hrows, htop⟩
    | succ m ih => exact ownTop_dropTop _ ih.1 ih.2
  exact hall.2

/-- What a poll leaves: own rows, a lower cursor from its answer, and an upper one that is own if it was. -/
theorem pollTailDone_own (t : Tab) (a : Asked) (d : LinesResponse) (hrows : t.OwnRows)
    (hbuilt : a = t.asked ∨ Tab.buildRows parses a d = []) :
    let t' := t.pollTailDone parses a d
    t'.asked = t.asked ∧ t'.OwnRows ∧ (t.OwnTop → t'.OwnTop) ∧ (a.sink = t.activeSink → t'.OwnTail) := by
  intro t'
  unfold t' Tab.pollTailDone
  simp only
  split
  · exact ⟨rfl, hrows, fun htop => htop, fun hsink => ⟨a, rfl, hsink⟩⟩
  · let moved : Tab := { t with
      chainEnd := d.tailOffset, tailOffset := d.nextOffset, tailAsked := some a, rows :=
      t.rows ++ Tab.buildRows parses a d }
    have hmoved : moved.OwnRows := hrows.append t _ (buildRows_own parses t a d hbuilt)
    have hprune := ownTop_pruneTop moved hmoved
    obtain ⟨rows, top, who, hframe, hsub⟩ := Tab.pruneTop_frame moved
    change moved.pruneTop.asked = t.asked ∧ moved.pruneTop.OwnRows ∧ (t.OwnTop → moved.pruneTop.OwnTop) ∧
      (a.sink = t.activeSink → moved.pruneTop.OwnTail)
    rw [hframe] at hprune ⊢
    exact ⟨rfl, fun row hrow => hmoved row (hsub hrow), fun htop => hprune htop, fun hsink => ⟨a, rfl, hsink⟩⟩

/-- What a scroll leaves: the lower cursor is as it was. -/
theorem loadOlderDone_own (t : Tab) (a : Asked) (d : LinesResponse) (hrows : t.OwnRows)
    (hbuilt : 0 < d.lines.length → a = t.asked ∨ Tab.buildRows parses a d = []) :
    let t' := t.loadOlderDone parses a (some d)
    t'.asked = t.asked ∧ t'.OwnRows ∧ ((0 < d.lines.length → a.sink = t.activeSink) → t.OwnTop → t'.OwnTop) ∧
      (t.OwnTail → t'.OwnTail) := by
  intro t'
  unfold t' Tab.loadOlderDone
  simp only
  split
  · rename_i hlines
    refine ⟨rfl, ?_, fun hsink _ => .inr ⟨a, rfl, hsink hlines⟩, fun htail => htail⟩
    intro row hrow
    cases List.mem_append.mp hrow with
    | inl hrow => exact buildRows_own parses t a d (hbuilt hlines) row hrow
    | inr hrow => exact hrows row hrow
  · exact ⟨rfl, hrows, fun _ htop => htop, fun htail => htail⟩

/-! ## The steps -/

/-- A request sent leaves the invariant as it is; one for what is selected now that sets both cursors
establishes its second part. -/
theorem BrowserInv.sent (b : Browser) (kind : FetchKind) (hrows : b.tab.OwnRows)
    (hcursors : Fetch.Resets ⟨kind, b.tab.asked⟩ ∨ b.tab.OwnTop ∧ b.tab.OwnTail ∨ Pending b.tab b.fetches) :
    BrowserInv (b.send kind) := by
  refine ⟨hrows, ?_⟩
  cases hcursors with
  | inl hresets => exact .inr ⟨⟨kind, b.tab.asked⟩, List.mem_append_right _ List.mem_cons_self, hresets, rfl⟩
  | inr hcursors =>
    cases hcursors with
    | inl hown => exact .inl hown
    | inr hpending =>
      obtain ⟨g, hg, hresets, hasked⟩ := hpending
      exact .inr ⟨g, List.mem_append_left _ hg, hresets, hasked⟩

/-- What is left in flight, when the request answered was not the one waited for. -/
theorem BrowserInv.waiting (b : Browser) (h : BrowserInv b) (i : ℕ) (f : Fetch) (hf : b.fetches[i]? = some f)
    (hother : ¬ (f.Resets ∧ f.asked = b.tab.asked)) :
    b.tab.OwnTop ∧ b.tab.OwnTail ∨ Pending b.tab (b.fetches.eraseIdx i) := by
  cases h.cursors with
  | inl hown => exact .inl hown
  | inr hpending =>
    obtain ⟨g, hg, hresets, hasked⟩ := hpending
    obtain ⟨j, hj⟩ := List.mem_iff_getElem?.mp hg
    have hne : j ≠ i := by
      intro heq
      rw [heq, hf] at hj
      exact hother ⟨Option.some.inj hj ▸ hresets, Option.some.inj hj ▸ hasked⟩
    exact .inr ⟨g, List.mem_eraseIdx_iff_getElem?.mpr ⟨j, hne, hj⟩, hresets, hasked⟩

/-- The answer to a `loadTail` or a `jumpToMatch`: rows behind the ones there, both cursors from the answer. -/
theorem BrowserInv.opened (b : Browser) (h : BrowserInv b) (a : Asked) (d : LinesResponse)
    (fetches : List Fetch) (polling : Bool) (hmine : a = b.tab.asked ∨ Tab.buildRows parses a d = [] ∧
      (a.sink = b.tab.activeSink ∨ Pending b.tab fetches)) :
    BrowserInv ⟨{ Tab.startPoll (Tab.attachTopObserver { b.tab with
      tailOffset := d.tailOffset, tailAsked := some a, chainEnd := d.tailOffset, topOffset :=
      d.firstOffset, topAsked := some a
      rows := b.tab.rows ++ Tab.buildRows parses a d }) with polling := polling }, fetches⟩ := by
  have hrows := h.rows.append b.tab _ (buildRows_own parses b.tab a d (hmine.imp_right And.left))
  refine ⟨hrows, ?_⟩
  have hsink : a.sink = b.tab.activeSink ∨ Pending b.tab fetches := by
    cases hmine with
    | inl ha =>
      left
      rw [ha]
      rfl
    | inr hempty => exact hempty.2
  exact hsink.imp_left fun hs => ⟨.inr ⟨a, rfl, hs⟩, a, rfl, hs⟩

theorem BrowserInv.arrive (b : Browser) (h : BrowserInv b) (i : ℕ) (d : Option LinesResponse)
    (htimely : Timely parses b (.arrive i d)) : BrowserInv (b.step parses (.arrive i d)) := by
  unfold Browser.step
  simp only
  cases hf : b.fetches[i]? with
  | none => exact h
  | some f =>
    obtain ⟨hintime, hfails⟩ := htimely f hf
    have hwaiting := h.waiting b i f hf
    -- a failed request leaves the cursors as they are
    have hfailed : d = none → b.tab.OwnTop ∧ b.tab.OwnTail ∨ Pending b.tab (b.fetches.eraseIdx i) := by
      intro hnone
      by_cases hmine : f.Resets ∧ f.asked = b.tab.asked
      · exact hfails hnone hmine.1 hmine.2
      · exact hwaiting hmine
    simp only
    unfold Browser.commit
    cases hk : f.kind with
    | load fromPoll =>
      cases d with
      | none =>
        cases fromPoll with
        | false => exact ⟨h.rows, hfailed rfl⟩
        | true => exact ⟨h.rows, hfailed rfl⟩
      | some e =>
        have hmine := hintime e rfl (by unfold Fetch.Commits; rw [hk]; trivial)
        cases fromPoll with
        | false => exact h.opened parses b f.asked e _ b.tab.polling hmine
        | true => exact h.opened parses b f.asked e _ false hmine
    | poll =>
      have hleft := hwaiting (by unfold Fetch.Resets; rw [hk]; exact fun hc => hc.1)
      cases d with
      | none => exact ⟨h.rows, hleft⟩
      | some e =>
        simp only
        by_cases hreg : b.tab.regressed e = true
        · rw [if_pos hreg]
          exact BrowserInv.sent _ _ (ownRows_nil _ rfl) (.inl trivial)
        · rw [if_neg hreg]
          have hmine := hintime e rfl (by unfold Fetch.Commits; rw [hk]; exact Bool.eq_false_iff.mpr hreg)
          obtain ⟨hasked, hrows, htop, htail⟩ :=
            pollTailDone_own parses b.tab f.asked e h.rows (hmine.imp_right And.left)
          refine ⟨hrows, ?_⟩
          cases hleft with
          | inr hp => exact .inr (hp.same_asked _ _ hasked)
          | inl hown =>
            cases hmine with
            | inl ha => exact .inl ⟨htop hown.1, htail (by rw [ha]; rfl)⟩
            | inr hempty =>
              cases hempty.2 with
              | inl hsink => exact .inl ⟨htop hown.1, htail hsink⟩
              | inr hp => exact .inr (hp.same_asked _ _ hasked)
    | older =>
      have hleft := hwaiting (by unfold Fetch.Resets; rw [hk]; exact fun hc => hc.1)
      cases d with
      | none => exact ⟨h.rows, hleft⟩
      | some e =>
        have hmine : 0 < e.lines.length → f.asked = b.tab.asked ∨ Tab.buildRows parses f.asked e = [] ∧
            (f.asked.sink = b.tab.activeSink ∨ Pending b.tab (b.fetches.eraseIdx i)) := by
          intro hlines
          apply hintime e rfl
          unfold Fetch.Commits
          rw [hk]
          exact hlines
        obtain ⟨hasked, hrows, htop, htail⟩ := loadOlderDone_own parses b.tab f.asked e h.rows
          fun hlines => (hmine hlines).imp_right And.left
        refine ⟨hrows, ?_⟩
        cases hleft with
        | inr hp => exact .inr (hp.same_asked _ _ hasked)
        | inl hown =>
          by_cases hp : Pending b.tab (b.fetches.eraseIdx i)
          · exact .inr (hp.same_asked _ _ hasked)
          · refine .inl ⟨htop ?_ hown.1, htail hown.2⟩
            intro hlines
            cases hmine hlines with
            | inl ha =>
              rw [ha]
              rfl
            | inr hempty => exact hempty.2.resolve_right hp
    | jump =>
      cases d with
      | none => exact ⟨h.rows, hfailed rfl⟩
      | some e =>
        exact h.opened parses b f.asked e _ b.tab.polling
          (hintime e rfl (by unfold Fetch.Commits; rw [hk]; trivial))

theorem BrowserInv.step (b : Browser) (h : BrowserInv b) (a : BrowserAction) (htimely : Timely parses b a) :
    BrowserInv (b.step parses a) := by
  cases a with
  | changeSink s => exact BrowserInv.sent _ _ (ownRows_nil _ rfl) (.inl trivial)
  | changeFilter f => exact BrowserInv.sent _ _ (ownRows_nil _ rfl) (.inl trivial)
  | clear => exact ⟨ownRows_nil _ rfl, h.cursors.imp_left fun hown => ⟨.inl ⟨rfl, rfl⟩, hown.2⟩⟩
  | jumpTail => exact BrowserInv.sent _ _ (ownRows_nil _ rfl) (.inl trivial)
  | found results => exact ⟨h.rows, h.cursors⟩
  | jumpMatch idx =>
    change BrowserInv (b.jumpToMatch idx)
    unfold Browser.jumpToMatch
    split
    · exact h
    · split
      · exact h
      · exact BrowserInv.sent _ _ (ownRows_nil _ rfl) (.inl trivial)
  | tick =>
    change BrowserInv b.tick
    unfold Browser.tick
    split
    · exact BrowserInv.sent _ _ h.rows (.inr h.cursors)
    · exact h
  | scrollUp =>
    change BrowserInv b.scrollUp
    unfold Browser.scrollUp
    split
    · exact BrowserInv.sent _ _ h.rows (.inr h.cursors)
    · exact h
  | arrive i d => exact h.arrive parses b i d htimely

theorem BrowserInv.run (b : Browser) (h : BrowserInv b) (actions : List BrowserAction)
    (htimely : AllTimely parses b actions) :
    BrowserInv (b.run parses actions) := by
  induction actions generalizing b with
  | nil => exact h
  | cons a actions ih => exact ih (b.step parses a) (h.step parses b a htimely.1) htimely.2

/-- The tab as `init` leaves it: an empty table, and the first `loadTail` under way. -/
structure Booted (b : Browser) : Prop where
  rows : b.tab.rows = []
  fetches : b.fetches = [⟨.load false, b.tab.asked⟩]

/-- In every run whose answers all come in time: once no `loadTail` and no `jumpToMatch` is under way, the
rows are lines asked for with the sink and the filter selected, and both cursors come from answers about this
sink. -/
theorem run_current (b : Browser) (hboot : Booted b) (actions : List BrowserAction)
    (htimely : AllTimely parses b actions) :
    let b' := b.run parses actions
    (∀ f ∈ b'.fetches, ¬ f.Resets) → b'.tab.OwnRows ∧ b'.tab.OwnTop ∧ b'.tab.OwnTail := by
  intro b' hquiet
  have hstart : BrowserInv b := by
    refine ⟨ownRows_nil _ hboot.rows, .inr ⟨⟨.load false, b.tab.asked⟩, ?_, trivial, rfl⟩⟩
    rw [hboot.fetches]
    exact List.mem_cons_self
  have hinv := hstart.run parses b actions htimely
  refine ⟨hinv.rows, hinv.cursors.resolve_right ?_⟩
  intro hpending
  obtain ⟨g, hg, hresets, -⟩ := hpending
  exact hquiet g hg hresets

theorem timely_answer (b : Browser) (i : ℕ) (e : LinesResponse)
    (h : (b.fetches[i]?).map Fetch.asked = some b.tab.asked) :
    Timely parses b (.arrive i (some e)) := by
  intro f hf
  rw [hf] at h
  exact ⟨fun _ _ _ => .inl (Option.some.inj h), fun hnone => absurd hnone (by simp)⟩

end Browser

/-! ## Two runs -/

def otherSink : Sink := ⟨ascii "t", ascii "/l/t.jsonl", 1⟩

def booted : Browser where
  tab := ⟨oneGeneration, everything, none, [], 0, none, 0, none, 0, [], false, false, false, false⟩
  fetches := [⟨.load false, ⟨oneGeneration, everything⟩⟩]

theorem booted_booted : Booted booted := ⟨rfl, rfl⟩

/-- One record of two bytes at `offset`, the last of its chain. -/
def lastRecord (offset : ℕ) (text : Bytes) : LinesResponse :=
  ⟨[text], [offset], offset, offset + 2, offset + 2, offset + 2⟩

def noLines (offset : ℕ) : LinesResponse := ⟨[], [], offset, offset, offset, offset⟩

/-- The sink is changed while a poll is under way that finds nothing, and its answer comes before that to the
new `loadTail`. -/
theorem run_current_changed :
    let actions := [.arrive 0 (some (lastRecord 0 (ascii "1"))), .tick, .changeSink otherSink,
      .arrive 0 (some (noLines 2)),
        .arrive 0 (some (lastRecord 0 (ascii "3")))]
    let b' := booted.run (fun _ => true) actions
    (b'.tab.OwnRows ∧ b'.tab.OwnTop ∧ b'.tab.OwnTail) ∧
    b'.tab.rows = [⟨0, ascii "3", ⟨otherSink, everything⟩⟩] := by
  intro actions b'
  let changed := booted.run (fun _ => true) [.arrive 0 (some (lastRecord 0 (ascii "1"))), .tick,
    .changeSink otherSink]
  have hpending : Pending changed.tab (changed.fetches.eraseIdx 0) :=
    ⟨⟨.load false, ⟨otherSink, everything⟩⟩, List.mem_cons_self, trivial, rfl⟩
  have hempty : Timely (fun _ => true) changed (.arrive 0 (some (noLines 2))) := by
    intro f _
    refine ⟨?_, fun hnone => absurd hnone (by simp)⟩
    intro e he _
    rw [← Option.some.inj he]
    exact .inr ⟨rfl, .inr hpending⟩
  refine ⟨run_current (fun _ => true) booted booted_booted actions ?_ ?_, by decide +kernel⟩
  · exact ⟨timely_answer _ _ _ _ (by decide +kernel), trivial, trivial, hempty,
      timely_answer _ _ _ _ (by decide +kernel), trivial⟩
  · have hnone : b'.fetches = [] := by decide +kernel
    rw [hnone]
    exact fun f hf => absurd hf List.not_mem_nil

/-- The sink is changed while a poll is under way, and the answer to the poll comes behind that to the new
`loadTail`. -/
theorem run_current_late :
    let b' := booted.run (fun _ => true) [.arrive 0 (some (lastRecord 0 (ascii "1"))), .tick,
      .changeSink otherSink,
        .arrive 1 (some (lastRecord 0 (ascii "3"))), .arrive 0 (some (lastRecord 2 (ascii "2")))]
    Booted booted ∧ b'.fetches = [] ∧ b'.tab.activeSink = otherSink ∧ ¬ b'.tab.OwnRows ∧ ¬ b'.tab.OwnTail := by
  intro b'
  have hrows : b'.tab.rows = [⟨0, ascii "3", ⟨otherSink, everything⟩⟩,
      ⟨2, ascii "2", ⟨oneGeneration, everything⟩⟩] := by
    decide +kernel
  have htail : b'.tab.tailAsked = some ⟨oneGeneration, everything⟩ := by decide +kernel
  refine ⟨booted_booted, by decide +kernel, by decide +kernel, ?_, ?_⟩
  · intro hown
    have hlate := hown ⟨2, ascii "2", ⟨oneGeneration, everything⟩⟩ (by rw [hrows]; simp)
    exact absurd hlate (by decide +kernel)
  · intro hown
    obtain ⟨a, ha, hsink⟩ := hown
    rw [htail] at ha
    rw [← Option.some.inj ha] at hsink
    exact absurd hsink (by decide +kernel)

end Minilog.Viewer
