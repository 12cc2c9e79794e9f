import Minilog.Lib.Lines
import Minilog.Output.Handlers

/-! Every line that was written is a line of its own.

A sink appends to what it finds. That is right as long as no file is left in the middle of a line when the
next line is written to it: a write that was cut short must have left nothing, everything, or enough to make
the next message rotate the file away (`Tidy`). -/
namespace Minilog.Output
open Lib Lib.Effect
open Minilog.Parser Minilog.Server
set_option autoImplicit false

section WholeLines

variable (cfg : OutputConfig) (c : Chain)

/-- The active file of a chain, empty when it is not there. -/
def active (a : Archive) : Bytes := (a.slots c 0).getD []

/-- The closed lines of all files a chain has had, oldest first. -/
def stored (a : Archive) : List Bytes := (archived cfg c a).flatMap closedLines ++ closedLines (active c a)

theorem stored_eq (a : Archive) : stored cfg c a = (history cfg c a).flatMap closedLines := by
  unfold stored active
  rw [history_eq, List.flatMap_append]
  cases a.slots c 0 with
  | none => rfl
  | some b => simp

/-- At the start of a line, or so large that the next message rotates the file. -/
def Settled (b : Bytes) : Prop := AtLineStart b ∨ (0 < cfg.maxSize ∧ cfg.maxSize ≤ b.length)

/-- The lines that were written to a chain are lines of its files, in their order. -/
structure Whole (a : Archive) : Prop where
  settled : Settled cfg (active c a)
  lines : List.Sublist (written c a.trace) ((stored cfg c a).map (· ++ [lf]))

/-! ## Opening and rotating -/

/-- The lines of every chain stay where they are; an active file may have become empty. -/
structure Neutral (a a' : Archive) : Prop where
  stored : ∀ c, stored cfg c a' = stored cfg c a
  written : ∀ c, written c a'.trace = written c a.trace
  active : ∀ c, active c a' = active c a ∨ active c a' = []

variable {cfg} {c}

theorem Neutral.trans {a a' a'' : Archive} (h : Neutral cfg a a') (h' : Neutral cfg a' a'') :
    Neutral cfg a a'' where
  stored c := (h'.stored c).trans (h.stored c)
  written c := (h'.written c).trans (h.written c)
  active c := by
    cases h'.active c with
    | inl h₁ =>
      rw [h₁]
      exact h.active c
    | inr h₁ => exact .inr h₁

theorem Opened.neutral {a a' : Archive} (h : Opened a a') : Neutral cfg a a' where
  stored c := by
    unfold Output.stored Output.active
    rw [h.archived cfg c, h.active c]
  written c := by rw [h.trace]
  active c := .inl (h.active c)

theorem Aged.neutral {w w' : World} (h : Aged cfg c w w') : Neutral cfg (w.archive cfg) (w'.archive cfg) where
  stored d := by
    by_cases hd : d = c
    · rw [hd, stored_eq, stored_eq, history_eq, history_eq]
      cases h.contents with
      | inl h' => rw [h'.1, h'.2]
      | inr h' =>
        rw [h'.1, h'.2]
        simp
    · unfold Output.stored Output.active archived
      rw [h.frame.slots d hd, h.frame.gone d hd]
  written d := h.frame.written d
  active d := by
    by_cases hd : d = c
    · rw [hd]
      unfold Output.active
      cases h.contents with
      | inl h' => exact .inl (by rw [h'.2])
      | inr h' => exact .inr (by rw [h'.2]; rfl)
    · exact .inl (by unfold Output.active; rw [h.frame.slots d hd])

theorem Rotated.neutral {plan : Plan} {done : Bool} {w w' : World} (h : Rotated cfg plan done w w') :
    Neutral cfg (w.archive cfg) (w'.archive cfg) := by
  obtain ⟨w₁, w₂, text, jsonl, ht, hj, ho, -⟩ := h
  exact (ht.aged.neutral.trans hj.aged.neutral).trans ho.neutral

theorem Prepared.neutral {plan : Plan} {done : Bool} {w w' : World} (h : Prepared cfg plan done w w') :
    Neutral cfg (w.archive cfg) (w'.archive cfg) := by
  by_cases hdue : Due cfg (w.archive cfg)
  · obtain ⟨w₁, ho, hr⟩ := h.due hdue
    exact ho.neutral.trans hr.neutral
  · exact (h.notDue hdue).neutral

theorem Neutral.whole {a a' : Archive} (h : Neutral cfg a a') (hw : Whole cfg c a) : Whole cfg c a' := by
  refine ⟨?_, by rw [h.stored c, h.written c]; exact hw.lines⟩
  cases h.active c with
  | inl h' =>
    rw [h']
    exact hw.settled
  | inr h' =>
    rw [h']
    exact .inl (.inl rfl)

/-- After a rotation every active file is empty. -/
theorem Rotated.active {plan : Plan} {w w' : World} (h : Rotated cfg plan true w w') (hc : c.Configured cfg) :
    active c (w'.archive cfg) = [] := by
  obtain ⟨w₁, w₂, text, jsonl, ht, hj, ho, hdone⟩ := h
  obtain ⟨rfl, rfl⟩ := hdone rfl
  unfold Output.active
  rw [ho.active c]
  cases c with
  | text =>
    rw [hj.aged.frame.slots .text (by decide), (ht.moved rfl hc).2]
    rfl
  | jsonl =>
    rw [(hj.moved rfl hc).2]
    rfl

/-- Lines are written at the start of a line. -/
theorem Prepared.atLineStart {plan : Plan} {w w' : World} (h : Prepared cfg plan true w w')
    (hc : c.Configured cfg) (hw : Whole cfg c (w.archive cfg)) :
    AtLineStart (active c (w'.archive cfg)) ∧
      (Due cfg (w.archive cfg) → active c (w'.archive cfg) = []) ∧
      (¬ Due cfg (w.archive cfg) → active c (w'.archive cfg) = active c (w.archive cfg)) := by
  by_cases hdue : Due cfg (w.archive cfg)
  · obtain ⟨w₁, ho, hr⟩ := h.due hdue
    have hempty := hr.active hc
    exact ⟨.inl hempty, fun _ => hempty, fun hn => absurd hdue hn⟩
  · have hsame : active c (w'.archive cfg) = active c (w.archive cfg) := (h.notDue hdue).active c
    refine ⟨?_, fun hn => absurd hn hdue, fun _ => hsame⟩
    rw [hsame]
    refine hw.settled.resolve_right ?_
    rintro ⟨hpos, hlen⟩
    cases hs : (w.archive cfg).slots c 0 with
    | none =>
      have hnil : active c (w.archive cfg) = [] := by unfold active; rw [hs]; rfl
      rw [hnil, List.length_nil] at hlen
      omega
    | some b =>
      have hb : active c (w.archive cfg) = b := by unfold active; rw [hs]; rfl
      rw [hb] at hlen
      exact hdue ⟨by omega, c, b, hs, hlen⟩

/-! ## Writing -/

theorem set_zero_zero (s : Slots Bytes) (v : Option Bytes) : (s.set 0 v).set 0 none = s.set 0 none :=
  Function.update_idem ..

theorem archived_put (a : Archive) (v : Option Bytes) : archived cfg c (a.put c 0 v) = archived cfg c a := by
  unfold archived
  rw [put_slots, set_zero_zero]
  rfl

theorem gone_wrote (d : Chain) (trace : List Deed) (line : Bytes) :
    gone d (trace ++ [.wrote c line]) = gone d trace := by
  simp [gone, Deed.gone]

theorem active_put (a : Archive) (b : Bytes) : active c (a.put c 0 (some b)) = b := by
  unfold active
  rw [put_slots, Slots.set_same]
  rfl

/-- A write does not reach the other chain. -/
theorem Appended.other {plan : Plan} {line : Bytes} {done : Bool} {a a' : Archive}
    (h : Appended cfg plan c line a done a') (d : Chain) (hd : d ≠ c) :
    a'.slots d = a.slots d ∧ gone d a'.trace = gone d a.trace ∧ written d a'.trace = written d a.trace := by
  cases h with
  | absent hc => exact ⟨rfl, rfl, rfl⟩
  | whole content hc hold =>
    refine ⟨put_slots_other c _ 0 _ d hd, gone_wrote d a.trace line, ?_⟩
    change written d (a.trace ++ [.wrote c line]) = _
    simp [written, Deed.line, Ne.symm hd]
  | untouched => exact ⟨rfl, rfl, rfl⟩
  | torn content hc hold hbad => exact ⟨put_slots_other c _ 0 _ d hd, rfl, rfl⟩

theorem Appended.whole_other {plan : Plan} {line : Bytes} {done : Bool} {a a' : Archive}
    (h : Appended cfg plan c line a done a') (d : Chain) (hd : d ≠ c) (hw : Whole cfg d a) :
    Whole cfg d a' := by
  obtain ⟨hslots, hgone, hwritten⟩ := h.other d hd
  have hactive : active d a' = active d a := by unfold active; rw [hslots]
  have hstored : stored cfg d a' = stored cfg d a := by unfold stored archived; rw [hactive, hslots, hgone]
  exact ⟨by rw [hactive]; exact hw.settled, by rw [hwritten, hstored]; exact hw.lines⟩

/-- A write at the start of a line adds that line, or leaves the file settled. -/
theorem Appended.whole_own {plan : Plan} {l : Bytes} {done : Bool} {a a' : Archive} (hl : lf ∉ l)
    (h : Appended cfg plan c (l ++ [lf]) a done a') (hw : Whole cfg c a) (hstart : AtLineStart (active c a))
    (htorn : ¬ plan.Ok (.write c) → AtLineStart (plan.torn c (l ++ [lf])) ∨
      (0 < cfg.maxSize ∧ cfg.maxSize ≤ (active c a).length + (plan.torn c (l ++ [lf])).length)) :
    Whole cfg c a' := by
  cases h with
  | absent hc => exact hw
  | untouched => exact hw
  | whole content hc hold =>
    have hcontent : active c a = content := by unfold active; rw [hold]; rfl
    rw [hcontent] at hstart
    have hwritten : written c (a.trace ++ [.wrote c (l ++ [lf])]) = written c a.trace ++ [l ++ [lf]] := by
      simp [written, Deed.line]
    have hstored : stored cfg c ((a.add [.wrote c (l ++ [lf])]).put c 0 (some (content ++ (l ++ [lf])))) =
        stored cfg c a ++ [l] := by
      unfold stored
      rw [archived_put, active_put, closedLines_append content _ hstart, closedLines_line l hl, hcontent,
        List.append_assoc]
      unfold archived
      change (gone c (a.trace ++ [.wrote c (l ++ [lf])]) ++ _).flatMap closedLines ++ _ = _
      rw [gone_wrote]
      rfl
    refine ⟨?_, ?_⟩
    · rw [active_put]
      exact .inl (.inr (by simp))
    · rw [hstored, List.map_append]
      change List.Sublist (written c (a.trace ++ [.wrote c (l ++ [lf])])) _
      rw [hwritten]
      exact List.Sublist.append hw.lines (List.Sublist.refl _)
  | torn content hc hold hbad =>
    have hcontent : active c a = content := by unfold active; rw [hold]; rfl
    refine ⟨?_, ?_⟩
    · rw [active_put]
      rw [hcontent] at hstart htorn
      cases htorn hbad with
      | inl hends => exact .inl (hstart.append hends)
      | inr hbig => exact .inr ⟨hbig.1, by rw [List.length_append]; exact hbig.2⟩
    · refine hw.lines.trans ((List.IsPrefix.sublist ?_).map _)
      unfold stored
      rw [archived_put, active_put, hcontent]
      exact (List.prefix_append_right_inj _).mpr (closedLines_initial content _)

/-! ## Runs -/

variable (serialize : List (Bytes × Option Bytes) → Bytes)

/-- If the message is written to a chain and the write fails, then what is left of the line is nothing, or
ends with the line's LF, or the file has reached `max_size`. -/
def Tidy (cfg : OutputConfig) (w : World) (e : Event) : Prop :=
  match e with
  | .write msg rcv plan => Takes cfg w msg → ∀ c, Chain.Configured cfg c → ¬ plan.Ok (.write c) →
      let left := plan.torn c (c.line serialize msg rcv)
      AtLineStart left ∨
        (0 < cfg.maxSize ∧ (Due cfg (w.archive cfg) → cfg.maxSize ≤ left.length) ∧
          (¬ Due cfg (w.archive cfg) → cfg.maxSize ≤ (active c (w.archive cfg)).length + left.length))
  | _ => True

theorem line_eq (hserialize : ∀ members, lf ∉ serialize members) (c : Chain) (msg : SyslogMessage)
    (rcv : Bytes) :
    ∃ l, lf ∉ l ∧ c.line serialize msg rcv = l ++ [lf] := by
  cases c with
  | text => exact ⟨_, lf_not_mem_escapeControlChars msg.raw, rfl⟩
  | jsonl => exact ⟨_, hserialize _, rfl⟩

theorem Handled.whole (hserialize : ∀ members, lf ∉ serialize members) (e : Event) (w v : World)
    (h : Handled cfg serialize e w v) (htidy : Tidy serialize cfg w e)
    (hw : ∀ c, Chain.Configured cfg c → Whole cfg c (w.archive cfg)) (c : Chain) (hc : c.Configured cfg) :
    Whole cfg c (v.archive cfg) := by
  have hopened : Opened (w.archive cfg) (v.archive cfg) → Whole cfg c (v.archive cfg) :=
    fun ho => (Opened.neutral ho).whole (hw c hc)
  cases e with
  | start openNow plan => exact hopened h
  | retry plan => exact hopened h
  | close => exact hopened h
  | write msg rcv plan =>
    cases h with
    | inr h => exact hopened h.2
    | inl h =>
      obtain ⟨htakes, done, hwritten⟩ := h
      have htorn := htidy htakes
      cases hwritten with
      | stopped hp => exact hp.neutral.whole (hw c hc)
      | wrote w₁ a₂ text jsonl hp hready ht hj =>
        -- the other chain's write leaves the active file alone
        have hown : ∀ d, Chain.Configured cfg d → ∀ a a' done, active d a = active d (w₁.archive cfg) →
            Whole cfg d a → Appended cfg plan d (d.line serialize msg rcv) a done a' → Whole cfg d a' := by
          intro d hd a a' done hsame hwa happ
          obtain ⟨hstart, hdue, hnot⟩ := hp.atLineStart hd (hw d hd)
          obtain ⟨l, hl, hline⟩ := line_eq serialize hserialize d msg rcv
          rw [hline] at happ
          refine happ.whole_own hl hwa (hsame ▸ hstart) fun hbad => ?_
          have hcase := htorn d hd hbad
          rw [hline] at hcase
          refine hcase.imp id ?_
          rintro ⟨hpos, hyes, hno⟩
          refine ⟨hpos, ?_⟩
          rw [hsame]
          by_cases hd' : Due cfg (w.archive cfg)
          · have hlen := hyes hd'
            omega
          · rw [hnot hd']
            exact hno hd'
        have hw₁ := hp.neutral.whole (hw c hc)
        cases c with
        | text => exact hj.whole_other .text (by decide) (hown .text hc _ _ _ rfl hw₁ ht)
        | jsonl =>
          have hsame : active .jsonl a₂ = active .jsonl (w₁.archive cfg) := by
            unfold active
            rw [(ht.other .jsonl (by decide)).1]
          exact hown .jsonl hc _ _ _ hsame (ht.whole_other .jsonl (by decide) hw₁) hj

/-- In every state of a tidy run, the lines that were written to a chain are, in this order and each with its
LF, among the closed lines of the files the chain has or had. -/
theorem run_lines_whole (retryInterval : ℕ) (hfiles : Separated cfg)
    (hserialize : ∀ members, lf ∉ serialize members) (w : World) (hstopped : w.running = false)
    (htrace : w.trace = [])
    (hactive : ∀ c, Chain.Configured cfg c → AtLineStart ((w.disk (c.file cfg)).getD [])) (events : List Event)
    (htidy : Along cfg retryInterval serialize (Tidy serialize cfg) w events) (c : Chain) (hc : c.Configured cfg) :
    let w' := run cfg retryInterval serialize w events
    List.Sublist (written c w'.trace)
      (((gone c w'.trace ++ (slots cfg w'.disk c).listing (depth cfg + 1)).flatMap closedLines).map
        (· ++ [lf])) := by
  have hwhole : ∀ d, Chain.Configured cfg d →
      Whole cfg d ((run cfg retryInterval serialize w events).archive cfg) := by
    refine run_invariant cfg retryInterval serialize hfiles.apart (Tidy serialize cfg)
      (fun a => ∀ d, Chain.Configured cfg d → Whole cfg d a) ?_ ?_ events w ?_ ?_ htidy
    · intro a r h d hd
      exact ⟨(h d hd).settled, (h d hd).lines⟩
    · intro e u v hv ht h d hd
      exact Handled.whole serialize hserialize e u v hv ht h d hd
    · intro hrun
      rw [hstopped] at hrun
      cases hrun
    · intro d hd
      refine ⟨.inl ?_, ?_⟩
      · have hslot : (w.archive cfg).slots d 0 = w.disk (d.file cfg) := slots_active cfg w.disk d hd
        unfold active
        rw [hslot]
        exact hactive d hd
      · change List.Sublist (written d w.trace) _
        rw [htrace]
        exact List.nil_sublist _
  have hlines := (hwhole c hc).lines
  rw [stored_eq] at hlines
  exact hlines

end WholeLines

/-- A disk that is full for a while: the write of one message fails after `n` bytes, and the sink is reopened
before the next message. -/
def fullDisk (n : ℕ) : List Event :=
  [.start true .fine, .write { raw := ascii "ab" } [] (.fault (.write .text) n), .retry .fine,
    .write { raw := ascii "cd" } [] .fine]

/-- Nothing of the first line is left. -/
theorem run_lines_fullDisk :
    let w := run pair SinkRecovery.kRetryInterval jsonText blank (fullDisk 0)
    List.Sublist (written .text w.trace)
      (((gone .text w.trace ++ (slots pair w.disk .text).listing (depth pair + 1)).flatMap closedLines).map
        (· ++ [lf])) := by
  refine run_lines_whole jsonText _ separated_pair lf_notMem_jsonText blank rfl rfl (fun _ _ => .inl rfl)
    (fullDisk 0) ?_ .text (by decide)
  have hnone : ∀ c line, AtLineStart ((Plan.fault (.write .text) 0).torn c line) := by
    intro c line
    left
    unfold Plan.torn
    rw [show (Plan.fault (.write .text) 0).written c = 0 from rfl, List.take_zero, List.nil_append]
    split
    · rfl
    · exact List.take_zero
  exact ⟨trivial, fun _ _ _ _ => .inl (hnone _ _), trivial, fun _ _ _ hbad => absurd rfl hbad, trivial⟩

/-- One byte of the first line is left: the second line is not one of its own. -/
theorem run_lines_glued :
    let w := run pair SinkRecovery.kRetryInterval jsonText blank (fullDisk 1)
    written .text w.trace = [ascii "cd" ++ [lf]] ∧
      ¬ List.Sublist (written .text w.trace)
        (((gone .text w.trace ++ (slots pair w.disk .text).listing (depth pair + 1)).flatMap
          closedLines).map (· ++ [lf])) := by
  decide +kernel

end Minilog.Output
