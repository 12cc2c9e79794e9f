import Minilog.Output.Archive

/-! The life of a sink between two handlers.

A handler may fail in any step and more than once; as long as reporting works it leaves the sink either
`Serving`, with every configured stream open and no retry pending, or `Failed`, with everything closed and one
retry armed. The files do not matter here. A `Strand` is the sink with the handlers its retry timer has
queued. -/
namespace Minilog.Output
open Lib Lib.Effect
open Minilog.Parser Minilog.Server
set_option autoImplicit false

/-- Neither starting nor closing; no stream was opened twice. -/
structure Regular (s : LogFile) : Prop where
  shuttingDown : s.shuttingDown = false
  startingUp : s.startingUp = false
  reopened : s.reopened = false

structure Failed (s : LogFile) : Prop where
  regular : Regular s
  down : Down s
  outage : s.recovery.failures ≠ 0
  armed : s.retryArmed = true

/-- Nothing is wrong with the sink; its streams may be closed, as in a rotation. -/
structure Healthy (s : LogFile) : Prop where
  regular : Regular s
  closed : s.closed = false
  outage : s.recovery.failures = 0
  armed : s.retryArmed = false

/-- Every configured stream is open. -/
def AllOpen (cfg : OutputConfig) (s : LogFile) : Prop := ∀ c, Chain.Configured cfg c → s.isOpen c = true

structure Serving (cfg : OutputConfig) (s : LogFile) : Prop where
  healthy : Healthy s
  streams : AllOpen cfg s

/-- Reporting works, and the process is not killed. -/
structure Plan.Reports (plan : Plan) : Prop where
  report : plan.Ok .report
  alive : ∀ call, plan.outcome call ≠ .killed

/-- How a handler can be left: with an exception. -/
def Escaped (e : Exit) (w : World) : Prop := (∃ what, e = .raised what) ∧ Regular w.sink

section Sink

variable (cfg : OutputConfig) (retryInterval : ℕ) (serialize : List (Bytes × Option Bytes) → Bytes)
  (plan : Plan)

/-! ## Failing -/

theorem osLog_reports (hplan : plan.Ok .report) (line : Bytes) (w : World) :
    wp (osLog plan line) (fun _ w' => w'.sink = w.sink) (fun _ _ => False) w := by
  unfold osLog
  rw [wp_bind]
  apply reach_rule
  · exact rfl
  · intro hbad
    exact absurd hplan hbad

theorem onFailure_failures (r : SinkRecovery) (now : ℕ) : (r.onFailure now).2.failures = r.failures + 1 := by
  unfold SinkRecovery.onFailure SinkRecovery.onFailureBy
  split
  · next h => rw [h]
  · dsimp only
    split
    · rfl
    · rfl

theorem onRecovered_failures (r : SinkRecovery) (now : ℕ) : (r.onRecovered now).2.failures = 0 := by
  unfold SinkRecovery.onRecovered
  split
  · next h => exact h
  · rfl

/-- `failSink` closes the sink and arms the timer, whatever state the streams and the timer are in. -/
theorem failSink_failed (hplan : plan.Ok .report) (reason : Bytes) (w : World) (h : Regular w.sink) :
    wp (failSink cfg retryInterval plan reason) (fun _ w' => Failed w'.sink) (fun _ _ => False) w := by
  have hshut : ∀ w' : World, Regular w'.sink → w'.sink.recovery.failures ≠ 0 →
      wp (do onSink fun s => { s with closed := true }
             closeFiles
             scheduleRetry : M Unit) (fun _ w'' => Failed w''.sink) (fun _ _ => False) w' := by
    intro w' hr hout
    unfold closeFiles scheduleRetry onSink
    simp only [wp_bind, wp_modify]
    rw [if_neg (by rw [hr.shuttingDown]; simp)]
    exact ⟨⟨hr.shuttingDown, hr.startingUp, hr.reopened⟩, ⟨rfl, fun _ => ⟨rfl, rfl⟩⟩, hout, rfl⟩
  have hout : (w.sink.recovery.onFailure plan.now).2.failures ≠ 0 := by
    rw [onFailure_failures]
    exact Nat.succ_ne_zero _
  -- the report changes nothing
  have hlog : ∀ (line : Bytes) (w₁ : World),
      w₁.sink = { w.sink with recovery := (w.sink.recovery.onFailure plan.now).2 } →
      wp (osLog plan line) (fun _ w' => Regular w'.sink ∧ w'.sink.recovery.failures ≠ 0)
      (fun _ _ => False) w₁ := by
    intro line w₁ hw₁
    refine wp_mono _ _ _ _ _ _ (osLog_reports plan hplan line w₁) ?_ (fun _ _ hf => hf)
    intro _ w' hw'
    rw [hw', hw₁]
    exact ⟨⟨h.shuttingDown, h.startingUp, h.reopened⟩, hout⟩
  unfold failSink
  simp only [wp_bind, wp_get, h.startingUp, Bool.false_eq_true, if_false]
  unfold onSink at *
  rw [wp_modify]
  split
  · split
    · rw [wp_bind]
      exact wp_mono _ _ _ _ _ _ (hlog _ _ rfl) (fun _ w' hw' => hshut w' hw'.1 hw'.2) (fun _ _ hf => hf)
    · rw [wp_bind]
      exact wp_mono _ _ _ _ _ _ (hlog _ _ rfl) (fun _ w' hw' => hshut w' hw'.1 hw'.2) (fun _ _ hf => hf)
  · exact hshut _ ⟨h.shuttingDown, h.startingUp, h.reopened⟩ hout

theorem failSinkFromHandler_failed (hplan : plan.Ok .report) (what : Bytes) (w : World) (h : Regular w.sink) :
    wp (failSinkFromHandler cfg retryInterval plan what) (fun _ w' => Failed w'.sink) (fun _ _ => False) w := by
  unfold failSinkFromHandler
  rw [wp_handle]
  exact wp_mono _ _ _ _ _ _ (failSink_failed cfg retryInterval plan hplan _ w h) (fun _ _ hf => hf)
    (fun _ _ hf => hf.elim)

/-- A handler that is left with an exception ends with the sink closed like one that fails. -/
theorem guarded_failed (hplan : plan.Ok .report) (body : M Unit) (w : World) (Q : LogFile → Prop)
    (h : wp body (fun _ w' => Q w'.sink ∨ Failed w'.sink) Escaped w) :
    wp (guarded cfg retryInterval plan body) (fun _ w' => Q w'.sink ∨ Failed w'.sink) (fun _ _ => False) w := by
  unfold guarded
  rw [wp_handle]
  refine wp_mono _ _ _ _ _ _ h (fun _ _ hq => hq) ?_
  rintro e w' ⟨⟨what, rfl⟩, hr⟩
  exact wp_mono _ _ _ _ _ _ (failSinkFromHandler_failed cfg retryInterval plan hplan what w' hr)
    (fun _ _ hf => .inr hf) (fun _ _ hf => hf.elim)

/-! ## The steps of a rotation -/

/-- A step that either goes well, which leaves the sink as it was, or fails the sink; `ok` tells which from
its result. -/
def Guards {α : Type} (ok : α → Bool) (x : M α) : Prop :=
  ∀ w, Regular w.sink →
    wp x (fun a w' => (ok a = true ∧ w'.sink = w.sink) ∨ (ok a = false ∧ Failed w'.sink)) Escaped w

variable {α β : Type} (ok : α → Bool) (ok' : β → Bool)

theorem guards_pure (a : α) (ha : ok a = true) : Guards ok (pure a) := fun _ _ => .inl ⟨ha, rfl⟩

theorem guards_get : Guards (fun _ => true) (Effect.get : M World) := fun _ _ => .inl ⟨rfl, rfl⟩

theorem guards_setFile (path : Bytes) (content : Option Bytes) :
    Guards (fun _ => true) (setFile path content) :=
  fun _ _ => .inl ⟨rfl, rfl⟩

theorem guards_note (deed : Deed) : Guards (fun _ => true) (note deed) := fun _ _ => .inl ⟨rfl, rfl⟩

theorem guards_attempt (hplan : plan.Reports) (call : Call) : Guards (fun _ => true) (attempt plan call) := by
  intro w hw
  unfold attempt
  cases h : plan.outcome call with
  | ok => exact .inl ⟨rfl, rfl⟩
  | fails message => exact .inl ⟨rfl, rfl⟩
  | throws what => exact ⟨⟨what, rfl⟩, hw⟩
  | killed => exact absurd h (hplan.alive call)

/-- What fails ends; the rest goes on from the same sink. -/
theorem guards_bind (x : M α) (f : α → M β) (hx : Guards ok x) (hgo : ∀ a, ok a = true → Guards ok' (f a))
    (hstop : ∀ a, ok a = false → ∃ b, f a = pure b ∧ ok' b = false) : Guards ok' (x >>= f) := by
  intro w hw
  rw [wp_bind]
  refine wp_mono _ _ _ _ _ _ (hx w hw) ?_ (fun _ _ he => he)
  rintro a w₁ (⟨ha, hsink⟩ | ⟨ha, hfailed⟩)
  · have hrest := hgo a ha w₁ (hsink ▸ hw)
    rw [hsink] at hrest
    exact hrest
  · obtain ⟨b, hb, hno⟩ := hstop a ha
    rw [hb]
    exact .inr ⟨hno, hfailed⟩

/-- After a step that cannot fail. -/
theorem guards_then (x : M α) (f : α → M β) (hx : Guards (fun _ => true) x) (hgo : ∀ a, Guards ok' (f a)) :
    Guards ok' (x >>= f) :=
  guards_bind (fun _ => true) ok' x f hx (fun a _ => hgo a) (fun _ ha => by cases ha)

theorem guards_fail (hplan : plan.Reports) (reason : Bytes) (b : β) (hb : ok' b = false) :
    Guards ok' (do failSink cfg retryInterval plan reason; return b) := by
  intro w hw
  rw [wp_bind]
  exact wp_mono _ _ _ _ _ _ (failSink_failed cfg retryInterval plan hplan.report reason w hw)
    (fun _ _ hf => .inr ⟨hb, hf⟩) (fun _ _ hf => hf.elim)

variable (hplan : plan.Reports)

include hplan in
theorem probeFile_guards (call : Call) (path : Bytes) :
    Guards Option.isSome (probeFile cfg retryInterval plan call path) := by
  unfold probeFile
  refine guards_then _ _ _ (guards_attempt plan hplan call) ?_
  intro r
  cases r with
  | some message => exact guards_fail cfg retryInterval plan Option.isSome hplan _ none rfl
  | none => exact guards_then _ _ _ guards_get fun w => guards_pure _ _ rfl

include hplan in
theorem findHighest_guards (c : Chain) (left n highest : ℕ) :
    Guards Option.isSome (findHighest cfg retryInterval plan c left n highest) := by
  induction left generalizing n highest with
  | zero => exact guards_pure _ _ rfl
  | succ left ih =>
    unfold findHighest
    refine guards_bind Option.isSome _ _ _ (probeFile_guards cfg retryInterval plan hplan _ _) ?_ ?_
    · intro found hfound
      obtain ⟨b, rfl⟩ := Option.isSome_iff_exists.mp hfound
      exact ih _ _
    · intro found hfound
      rw [Option.isSome_eq_false_iff, Option.isNone_iff_eq_none] at hfound
      rw [hfound]
      exact ⟨none, rfl, rfl⟩

include hplan in
theorem removeOld_guards (c : Chain) (n : ℕ) : Guards id (removeOld cfg retryInterval plan c n) := by
  induction n with
  | zero => exact guards_pure _ _ rfl
  | succ n ih =>
    unfold removeOld
    split
    · exact guards_pure _ _ rfl
    · refine guards_bind Option.isSome _ _ _ (probeFile_guards cfg retryInterval plan hplan _ _) ?_ ?_
      · intro found hfound
        obtain ⟨b, rfl⟩ := Option.isSome_iff_exists.mp hfound
        cases b with
        | false => exact ih
        | true =>
          refine guards_then _ _ _ (guards_attempt plan hplan _) ?_
          intro r
          cases r with
          | some message => exact guards_fail cfg retryInterval plan id hplan _ false rfl
          | none =>
            refine guards_then _ _ _ guards_get fun w => ?_
            exact guards_then _ _ _ (guards_note _) fun _ => guards_then _ _ _ (guards_setFile _ _) fun _ => ih
      · intro found hfound
        rw [Option.isSome_eq_false_iff, Option.isNone_iff_eq_none] at hfound
        rw [hfound]
        exact ⟨false, rfl, rfl⟩

include hplan in
theorem shiftOne_guards (c : Chain) (n : ℕ) : Guards id (shiftOne cfg retryInterval plan c n) := by
  unfold shiftOne
  refine guards_bind Option.isSome _ _ _ (probeFile_guards cfg retryInterval plan hplan _ _) ?_ ?_
  · intro found hfound
    obtain ⟨b, rfl⟩ := Option.isSome_iff_exists.mp hfound
    cases b with
    | false => exact guards_pure _ _ rfl
    | true =>
      refine guards_then _ _ _ (guards_attempt plan hplan _) ?_
      intro r
      cases r with
      | some message => exact guards_fail cfg retryInterval plan id hplan _ false rfl
      | none =>
        refine guards_then _ _ _ guards_get fun w => ?_
        have hmove : Guards id (do
            setFile (c.path cfg (n + 1)) (w.disk (c.path cfg n))
            setFile (c.path cfg n) none
            return true) :=
          guards_then _ _ _ (guards_setFile _ _) fun _ => guards_then _ _ _ (guards_setFile _ _) fun _ =>
            guards_pure _ _ rfl
        cases w.disk (c.path cfg (n + 1)) with
        | none => exact hmove
        | some content => exact guards_then _ _ _ (guards_note _) fun _ => hmove
  · intro found hfound
    rw [Option.isSome_eq_false_iff, Option.isNone_iff_eq_none] at hfound
    rw [hfound]
    exact ⟨false, rfl, rfl⟩

/-- One step and then, if it went well, another. -/
theorem guards_and (x y : M Bool) (hx : Guards id x) (hy : Guards id y) :
    Guards id (do if ← x then y else return false) := by
  refine guards_bind id _ _ _ hx ?_ ?_
  · intro b hb
    rw [show b = true from hb]
    exact hy
  · intro b hb
    rw [show b = false from hb]
    exact ⟨false, rfl, rfl⟩

include hplan in
theorem shiftUp_guards (c : Chain) (n : ℕ) : Guards id (shiftUp cfg retryInterval plan c n) := by
  induction n with
  | zero => exact guards_pure _ _ rfl
  | succ n ih => exact guards_and _ _ (shiftOne_guards cfg retryInterval plan hplan c (n + 1)) ih

include hplan in
theorem shiftChain_guards (c : Chain) : Guards id (shiftChain cfg retryInterval plan c) := by
  have hdown : ∀ n, Guards id (shiftDown cfg retryInterval plan c n) := fun n =>
    guards_and _ _ (shiftUp_guards cfg retryInterval plan hplan c n)
      (shiftOne_guards cfg retryInterval plan hplan c 0)
  unfold shiftChain
  split
  · exact guards_pure _ _ rfl
  · unfold shiftFiles
    refine guards_bind Option.isSome _ _ _ (findHighest_guards cfg retryInterval plan hplan c _ _ _) ?_ ?_
    · intro r hr
      obtain ⟨highest, rfl⟩ := Option.isSome_iff_exists.mp hr
      dsimp only
      split
      · exact guards_and _ _ (removeOld_guards cfg retryInterval plan hplan c highest) (hdown _)
      · exact hdown highest
    · intro r hr
      rw [Option.isSome_eq_false_iff, Option.isNone_iff_eq_none] at hr
      rw [hr]
      exact ⟨false, rfl, rfl⟩

/-! ## Opening -/

/-- Only streams and sizes differ. -/
structure Same (s s' : LogFile) : Prop where
  closed : s'.closed = s.closed
  recovery : s'.recovery = s.recovery
  shuttingDown : s'.shuttingDown = s.shuttingDown
  startingUp : s'.startingUp = s.startingUp
  armed : s'.retryArmed = s.retryArmed
  reopened : s'.reopened = s.reopened

theorem Same.refl (s : LogFile) : Same s s := ⟨rfl, rfl, rfl, rfl, rfl, rfl⟩

theorem Same.trans (s s' s'' : LogFile) (h : Same s s') (h' : Same s' s'') : Same s s'' where
  closed := h'.closed.trans h.closed
  recovery := h'.recovery.trans h.recovery
  shuttingDown := h'.shuttingDown.trans h.shuttingDown
  startingUp := h'.startingUp.trans h.startingUp
  armed := h'.armed.trans h.armed
  reopened := h'.reopened.trans h.reopened

theorem Same.regular (s s' : LogFile) (h : Same s s') (hr : Regular s) : Regular s' :=
  ⟨h.shuttingDown.trans hr.shuttingDown, h.startingUp.trans hr.startingUp, h.reopened.trans hr.reopened⟩

theorem Same.healthy (s s' : LogFile) (h : Same s s') (hh : Healthy s) : Healthy s' :=
  ⟨h.regular _ _ hh.regular, h.closed.trans hh.closed, by rw [h.recovery, hh.outage], h.armed.trans hh.armed⟩

/-- How a step without reports can be left. -/
def Plan.Leaves (plan : Plan) (e : Exit) : Prop :=
  (∀ call, plan.outcome call ≠ .killed) → ∃ what, e = .raised what

theorem attempt_leaves (call : Call) (w : World) (Q : Option Bytes → World → Prop) (E : Exit → World → Prop)
    (hgo : ∀ r, Q r w) (hexit : ∀ e, plan.Leaves e → E e w) : wp (attempt plan call) Q E w := by
  unfold attempt
  cases h : plan.outcome call with
  | ok => exact hgo none
  | fails message => exact hgo (some message)
  | throws what => exact hexit _ fun _ => ⟨what, rfl⟩
  | killed => exact hexit _ fun halive => absurd h (halive call)

/-- A stream that is closed is opened; where that fails, the sink fails. -/
theorem openFile_same (rotating : Bool) (c : Chain) (w : World) (hidle : w.sink.isOpen c = false)
    (Q : Bool → World → Prop) (E : Exit → World → Prop)
    (hok : ∀ w', Same w.sink w'.sink → (c.Configured cfg → w'.sink.isOpen c = true) →
      (∀ d, d ≠ c → w'.sink.isOpen d = w.sink.isOpen d) → Q true w')
    (hfail : ∀ reason w', Same w.sink w'.sink →
      wp (failSink cfg retryInterval plan reason) (fun _ => Q false) E w')
    (hexit : ∀ e w', Same w.sink w'.sink → plan.Leaves e → E e w') :
    wp (openFile cfg retryInterval plan rotating c) Q E w := by
  unfold openFile
  by_cases hc : c.file cfg = []
  · rw [if_pos hc]
    exact hok w (Same.refl _) (fun h => absurd hc h) (fun _ _ => rfl)
  · rw [if_neg hc, wp_bind]
    unfold openStream
    simp only [wp_bind, wp_get, hidle, Bool.false_eq_true, if_false]
    refine attempt_leaves plan _ _ _ _ ?_ fun e he => hexit e w (Same.refl _) he
    intro r
    cases r with
    | some message =>
      simp only [wp_pure, Bool.false_eq_true, if_false, wp_bind]
      exact hfail _ w (Same.refl _)
    | none =>
      simp only [setFile, onSink, wp_bind, wp_modify, wp_pure, if_pos]
      refine attempt_leaves plan _ _ _ _ ?_ fun e he => hexit e _ ⟨rfl, rfl, rfl, rfl, rfl, rfl⟩ he
      intro r
      cases r with
      | some message =>
        rw [wp_bind]
        exact hfail _ _ ⟨rfl, rfl, rfl, rfl, rfl, rfl⟩
      | none => exact hok _ ⟨rfl, rfl, rfl, rfl, rfl, rfl⟩ (fun _ => by simp) (fun d hd => by simp [hd])

theorem openFiles_same (rotating : Bool) (w : World) (hidle : ∀ c, w.sink.isOpen c = false) (Q : World → Prop)
    (E : Exit → World → Prop) (hok : ∀ w', Same w.sink w'.sink → AllOpen cfg w'.sink → Q w')
    (hfail : ∀ reason w', Same w.sink w'.sink → wp (failSink cfg retryInterval plan reason) (fun _ => Q) E w')
    (hexit : ∀ e w', Same w.sink w'.sink → plan.Leaves e → E e w') :
    wp (openFiles cfg retryInterval plan rotating) (fun _ => Q) E w := by
  unfold openFiles
  rw [wp_bind]
  refine openFile_same cfg retryInterval plan rotating .text w (hidle .text) _ _ ?_ ?_ hexit
  · intro w₁ hsame₁ htext hother₁
    simp only [if_pos, discard, Functor.discard]
    change wp (openFile cfg retryInterval plan rotating .jsonl >>= fun _ => pure ()) _ _ w₁
    rw [wp_bind]
    have hidle₁ : w₁.sink.isOpen .jsonl = false := (hother₁ .jsonl (by decide)).trans (hidle .jsonl)
    refine openFile_same cfg retryInterval plan rotating .jsonl w₁ hidle₁ _ _ ?_ ?_ ?_
    · intro w₂ hsame₂ hjsonl hother₂
      refine hok w₂ (hsame₁.trans _ _ _ hsame₂) ?_
      intro c hc
      cases c with
      | text => exact (hother₂ .text (by decide)).trans (htext hc)
      | jsonl => exact hjsonl hc
    · exact fun reason w₂ hsame₂ => hfail reason w₂ (hsame₁.trans _ _ _ hsame₂)
    · exact fun e w₂ hsame₂ => hexit e w₂ (hsame₁.trans _ _ _ hsame₂)
  · exact fun reason w₁ hsame₁ => hfail reason w₁ hsame₁

include hplan in
/-- `openFiles` on a sink without open streams, during its life. -/
theorem openFiles_serves (rotating : Bool) (w : World) (hr : Regular w.sink)
    (hidle : ∀ c, w.sink.isOpen c = false) :
    wp (openFiles cfg retryInterval plan rotating)
      (fun _ w' => (Same w.sink w'.sink ∧ AllOpen cfg w'.sink) ∨ Failed w'.sink) Escaped w := by
  refine openFiles_same cfg retryInterval plan rotating w hidle (fun w' => (Same w.sink w'.sink ∧
    AllOpen cfg w'.sink) ∨ Failed w'.sink) _ ?_ ?_ ?_
  · exact fun w' hsame hopen => .inl ⟨hsame, hopen⟩
  · intro reason w' hsame
    exact wp_mono _ _ _ _ _ _ (failSink_failed cfg retryInterval plan hplan.report reason w'
      (hsame.regular _ _ hr)) (fun _ _ hf => .inr hf) (fun _ _ hf => hf.elim)
  · exact fun e w' hsame he => ⟨he hplan.alive, hsame.regular _ _ hr⟩

/-- What follows a step that went well. -/
theorem guards_go (x : M Bool) (y : M Unit) (P : LogFile → Prop) (hx : Guards id x) (w : World)
    (hr : Regular w.sink) (hgo : ∀ w', w'.sink = w.sink →
      wp y (fun _ w'' => P w''.sink ∨ Failed w''.sink) Escaped w') :
    wp (do if ← x then y) (fun _ w' => P w'.sink ∨ Failed w'.sink) Escaped w := by
  rw [wp_bind]
  refine wp_mono _ _ _ _ _ _ (hx w hr) ?_ (fun _ _ he => he)
  rintro b w' (⟨hb, hsink⟩ | ⟨hb, hfailed⟩)
  · rw [if_pos (show b = true from hb)]
    exact hgo w' hsink
  · rw [if_neg (by rw [show b = false from hb]; simp)]
    exact .inr hfailed

include hplan in
theorem rotate_serves (w : World) (h : Healthy w.sink) :
    wp (rotate cfg retryInterval plan) (fun _ w' => Serving cfg w'.sink ∨ Failed w'.sink) Escaped w := by
  unfold rotate closeFiles onSink
  rw [wp_bind, wp_modify]
  have hr : Regular { w.sink with isOpen := fun _ => false, size := fun _ => 0 } :=
    ⟨h.regular.shuttingDown, h.regular.startingUp, h.regular.reopened⟩
  refine guards_go _ _ _ (shiftChain_guards cfg retryInterval plan hplan .text) _ hr ?_
  intro w₁ hw₁
  refine guards_go _ _ _ (shiftChain_guards cfg retryInterval plan hplan .jsonl) w₁ (hw₁ ▸ hr) ?_
  intro w₂ hw₂
  have hsink : w₂.sink = { w.sink with isOpen := fun _ => false, size := fun _ => 0 } := hw₂.trans hw₁
  have hidle : ∀ c, w₂.sink.isOpen c = false := by
    rw [hsink]
    exact fun _ => rfl
  have hhealthy : Healthy w₂.sink := by
    rw [hsink]
    exact ⟨hr, h.closed, h.outage, h.armed⟩
  refine wp_mono _ _ _ _ _ _ (openFiles_serves cfg retryInterval plan hplan true w₂ hhealthy.regular hidle) ?_
    (fun _ _ he => he)
  rintro - w' (⟨hsame, hopen⟩ | hfailed)
  · exact .inl ⟨hsame.healthy _ _ hhealthy, hopen⟩
  · exact .inr hfailed

/-! ## Writing -/

theorem Serving.same (s s' : LogFile) (h : Serving cfg s) (hsame : Same s s') (hopen : s'.isOpen = s.isOpen) :
    Serving cfg s' :=
  ⟨hsame.healthy _ _ h.healthy, by unfold AllOpen; rw [hopen]; exact h.streams⟩

include hplan in
theorem reach_escapes (call : Call) (w : World) (hr : Regular w.sink) (Q : Unit → World → Prop) (hgo : Q () w) :
    wp (reach plan call) Q Escaped w := by
  unfold reach
  cases h : plan.outcome call with
  | ok => exact hgo
  | fails message => exact hgo
  | throws what => exact ⟨⟨what, rfl⟩, hr⟩
  | killed => exact absurd h (hplan.alive call)

/-- A stream that is closed is skipped; a write that fails fails the sink. -/
theorem writeChain_serves (hplan : plan.Reports) (c : Chain) (msg : SyslogMessage) (rcv : Bytes) (w : World)
    (h : Serving cfg w.sink ∨ Failed w.sink) :
    wp (writeChain cfg retryInterval serialize plan c msg rcv) (fun _ w' => Serving cfg w'.sink ∨
      Failed w'.sink) Escaped w := by
  have hr : Regular w.sink := by
    cases h with
    | inl h => exact h.healthy.regular
    | inr h => exact h.regular
  unfold writeChain
  simp only [wp_bind, wp_get]
  by_cases hopen : w.sink.isOpen c = false
  · rw [if_pos hopen]
    exact h
  · have hserving : Serving cfg w.sink := by
      cases h with
      | inl h => exact h
      | inr h => exact absurd (h.down.2 c).1 hopen
    rw [if_neg hopen, wp_bind]
    refine reach_escapes plan hplan _ w hr _ ?_
    have hfail : ∀ w', Regular w'.sink →
        wp (do failSink cfg retryInterval plan (ascii "write to " ++ quoted (c.file cfg) ++
          ascii " failed"); return false)
          (fun _ w' => Serving cfg w'.sink ∨ Failed w'.sink) Escaped w' := by
      intro w' hr'
      rw [wp_bind]
      exact wp_mono _ _ _ _ _ _ (failSink_failed cfg retryInterval plan hplan.report _ w' hr')
        (fun _ _ hf => .inr hf) (fun _ _ hf => hf.elim)
    unfold writeLine
    simp only [wp_bind, wp_get]
    by_cases hgood : w.sink.good c = false
    · rw [if_pos hgood]
      exact hfail w hr
    · rw [if_neg hgood]
      cases hout : plan.outcome (.write c) with
      | ok => exact .inl (hserving.same cfg _ _ ⟨rfl, rfl, rfl, rfl, rfl, rfl⟩ rfl)
      | fails message => exact hfail _ ⟨hr.shuttingDown, hr.startingUp, hr.reopened⟩
      | throws what => exact ⟨⟨what, rfl⟩, hr⟩
      | killed => exact absurd hout (hplan.alive _)

/-- The streams of a serving sink are open, so nothing is opened before a line. -/
theorem needOpen_serving (s : LogFile) (h : Serving cfg s) : needOpen cfg s = false := by
  have hchain : ∀ c : Chain, (decide (c.file cfg ≠ []) && !s.isOpen c) = false := by
    intro c
    by_cases hc : c.file cfg = []
    · simp [hc]
    · rw [h.streams c hc]
      simp
  have htext := hchain .text
  have hjsonl := hchain .jsonl
  unfold Chain.file at htext hjsonl
  unfold needOpen
  rw [htext, hjsonl]
  rfl

include hplan in
theorem doWrite_serves (msg : SyslogMessage) (rcv : Bytes) (w : World) (h : Serving cfg w.sink) :
    wp (doWrite cfg retryInterval serialize plan msg rcv) (fun _ w' => Serving cfg w'.sink ∨
      Failed w'.sink) Escaped w := by
  have hlines : ∀ w', Serving cfg w'.sink ∨ Failed w'.sink →
      wp (do reach plan .timestamp
             if ← writeChain cfg retryInterval serialize plan .text msg rcv then
               discard (writeChain cfg retryInterval serialize plan .jsonl msg rcv) : M Unit)
        (fun _ w' => Serving cfg w'.sink ∨ Failed w'.sink) Escaped w' := by
    intro w' hw'
    have hr : Regular w'.sink := by
      cases hw' with
      | inl hw' => exact hw'.healthy.regular
      | inr hw' => exact hw'.regular
    rw [wp_bind]
    refine reach_escapes plan hplan _ w' hr _ ?_
    rw [wp_bind]
    refine wp_mono _ _ _ _ _ _ (writeChain_serves cfg retryInterval serialize plan hplan .text msg rcv w'
      hw') ?_ (fun _ _ he => he)
    intro b w'' hw''
    cases b with
    | false => exact hw''
    | true =>
      simp only [if_pos, discard, Functor.discard]
      change wp (writeChain cfg retryInterval serialize plan .jsonl msg rcv >>= fun _ => pure ()) _ _ w''
      rw [wp_bind]
      exact writeChain_serves cfg retryInterval serialize plan hplan .jsonl msg rcv w'' hw''
  unfold doWrite
  simp only [wp_bind, wp_get]
  split
  · exact .inl h
  · simp only [needOpen_serving cfg w.sink h, Bool.false_eq_true, if_false]
    unfold rotateIfNeeded
    simp only [wp_bind, wp_get]
    split
    · exact wp_mono _ _ _ _ _ _ (rotate_serves cfg retryInterval plan hplan w h.healthy) (fun _ w' hw' =>
        hlines w' hw') (fun _ _ he => he)
    · exact hlines w (.inl h)

/-! ## Reopening -/

include hplan in
theorem attemptReopen_serves (w : World) (hr : Regular w.sink) (hidle : Idle w.sink)
    (harmed : w.sink.retryArmed = false) :
    wp (attemptReopen cfg retryInterval plan) (fun _ w' => Serving cfg w'.sink ∨ Failed w'.sink) Escaped w := by
  unfold attemptReopen onSink
  simp only [wp_bind, wp_modify]
  have hr' : Regular { w.sink with closed := false } := ⟨hr.shuttingDown, hr.startingUp, hr.reopened⟩
  refine wp_mono _ _ _ _ _ _ (openFiles_serves cfg retryInterval plan hplan false _ hr' fun c => (hidle c).1) ?_
    (fun _ _ he => he)
  rintro - w₁ (⟨hsame, hopen⟩ | hfailed)
  · have hclosed : w₁.sink.closed = false := hsame.closed
    simp only [wp_bind, wp_get, hclosed, if_pos, wp_modify]
    refine wp_mono _ _ _ _ _ _ (osLog_reports plan hplan.report _ _) ?_ (fun _ _ hf => hf.elim)
    intro _ w' hsink
    rw [hsink]
    have hr₁ := hsame.regular _ _ hr'
    exact .inl ⟨⟨⟨hr₁.shuttingDown, hr₁.startingUp, hr₁.reopened⟩, rfl, onRecovered_failures _ _,
      hsame.armed.trans harmed⟩, hopen⟩
  · simp only [wp_bind, wp_get, hfailed.down.1, Bool.true_eq_false, if_false]
    exact .inr hfailed

end Sink

/-! ## The strand -/

/-- A sink and how many completions of its retry timer are queued without an error. A wait that is cancelled,
by `close()` or by arming the timer again, is queued with an error instead; its handler returns at once. -/
structure Strand where
  world : World
  expired : ℕ := 0

/-- What happens next: a handler runs, or the timer expires. `retry` is a completion of the timer without an
error, `aborted` one with an error. -/
inductive Turn where
  | write (msg : SyslogMessage) (rcv : Bytes) (plan : Plan)
  | close
  | expire
  | retry (plan : Plan)
  | aborted

section Strand

variable (cfg : OutputConfig) (retryInterval : ℕ) (serialize : List (Bytes × Option Bytes) → Bytes)

/-- The handler that `scheduleRetry` leaves with the timer. -/
def onRetry (plan : Plan) : M Unit := do
  let w ← Effect.get
  if w.sink.shuttingDown = false then guarded cfg retryInterval plan (attemptReopen cfg retryInterval plan)

/-- The world after a handler; one that lets an exception out ends the process. -/
def settle (x : M Unit) (w : World) : World :=
  match x w with
  | (.ok _, w') => w'
  | (.error _, w') => { w' with running := false }

def Strand.turn (t : Strand) : Turn → Strand
  | .write msg rcv plan =>
    { t with world := settle (guarded cfg retryInterval plan
      (doWrite cfg retryInterval serialize plan msg rcv)) t.world }
  | .close => { t with world := settle closeSink t.world }
  | .expire =>
    if t.world.sink.retryArmed then
      ⟨{ t.world with sink := { t.world.sink with retryArmed := false } }, t.expired + 1⟩
    else t
  | .retry plan =>
    if t.expired = 0 then t else ⟨settle (onRetry cfg retryInterval plan) t.world, t.expired - 1⟩
  | .aborted => t

def Strand.run (t : Strand) (turns : List Turn) : Strand :=
  turns.foldl (Strand.turn cfg retryInterval serialize) t

/-- The sink after `openAtStartup`. -/
def Strand.startup (w : World) (plan : Plan) : Strand :=
  ⟨step cfg retryInterval serialize w (.start true plan), 0⟩

/-- The retries that are outstanding and not cancelled. -/
def Strand.retries (t : Strand) : ℕ := (if t.world.sink.retryArmed then 1 else 0) + t.expired

def Turn.Reports : Turn → Prop
  | .write _ _ plan | .retry plan => plan.Reports
  | _ => True

/-- With one event for an expiry and its handler, the sink is that of `step`. -/
theorem turn_retry (w : World) (plan : Plan) (hrun : w.running = true) (harmed : w.sink.retryArmed = true) :
    Strand.run cfg retryInterval serialize ⟨w, 0⟩ [.expire, .retry plan] =
      ⟨step cfg retryInterval serialize w (.retry plan), 0⟩ := by
  have hhandler : handler cfg retryInterval serialize (.retry plan) w =
      onRetry cfg retryInterval plan { w with sink := { w.sink with retryArmed := false } } := by
    change (if w.sink.retryArmed then _ else _ : M Unit) w = _
    rw [if_pos harmed]
    rfl
  have hgo : ¬ (w.running = false ∧ (Event.retry plan).isStart = false) := by
    rw [hrun]
    simp
  unfold Strand.run step
  simp only [List.foldl_cons, List.foldl_nil, Strand.turn, harmed, if_true, Nat.zero_add, Nat.one_ne_zero,
    if_false]
  rw [if_neg hgo, hhandler]
  rfl

/-! ## The invariant -/

structure Lifecycle (t : Strand) : Prop where
  startingUp : t.world.sink.startingUp = false
  reopened : t.world.sink.reopened = false
  serving : t.world.sink.closed = false → Serving cfg t.world.sink ∧ t.expired = 0
  failed : t.world.sink.closed = true → t.world.sink.shuttingDown = false →
    Idle t.world.sink ∧ t.world.sink.recovery.failures ≠ 0 ∧ t.retries = 1
  closing : t.world.sink.shuttingDown = true → Down t.world.sink ∧ t.world.sink.retryArmed = false

/-- A handler that ran during the life of the sink. -/
theorem lifecycle_ran (w : World) (h : Serving cfg w.sink ∨ Failed w.sink) :
    Lifecycle cfg ⟨w, 0⟩ ∧ w.sink.shuttingDown = false := by
  cases h with
  | inl h =>
    have hr := h.healthy.regular
    refine ⟨⟨hr.startingUp, hr.reopened, fun _ => ⟨h, rfl⟩, fun hc => ?_, fun hs => ?_⟩, hr.shuttingDown⟩
    · exact absurd (hc.symm.trans h.healthy.closed) (by simp)
    · exact absurd (hs.symm.trans hr.shuttingDown) (by simp)
  | inr h =>
    have hr := h.regular
    refine ⟨⟨hr.startingUp, hr.reopened, fun hc => ?_, fun _ _ => ⟨h.down.2, h.outage, ?_⟩, fun hs => ?_⟩,
      hr.shuttingDown⟩
    · exact absurd (hc.symm.trans h.down.1) (by simp)
    · simp [Strand.retries, h.armed]
    · exact absurd (hs.symm.trans hr.shuttingDown) (by simp)

/-- What a handler that cannot be left leaves. -/
theorem settle_rule (x : M Unit) (w : World) (Q : World → Prop) (h : wp x (fun _ => Q) (fun _ _ => False) w) :
    Q (settle x w) := by
  obtain ⟨_, w', hx, hq⟩ := wp_returns _ _ _ _ h fun _ _ hf => hf
  unfold settle
  rw [hx]
  exact hq

/-- A closed sink drops the message. -/
theorem write_closed (plan : Plan) (msg : SyslogMessage) (rcv : Bytes) (w : World)
    (hclosed : w.sink.closed = true) :
    settle (guarded cfg retryInterval plan (doWrite cfg retryInterval serialize plan msg rcv)) w = w := by
  have hdo : doWrite cfg retryInterval serialize plan msg rcv w = (.ok (), w) := by
    change (if w.sink.closed = true ∨ accepts cfg msg = false then (pure () : M Unit) else _) w = _
    rw [if_pos (.inl hclosed)]
    rfl
  unfold settle guarded Effect.handle
  rw [hdo]

/-- A completion that was queued before the sink was closed. -/
theorem retry_closing (plan : Plan) (w : World) (h : w.sink.shuttingDown = true) :
    settle (onRetry cfg retryInterval plan) w = w := by
  have hdo : onRetry cfg retryInterval plan w = (.ok (), w) := by
    change (if w.sink.shuttingDown = false then guarded cfg retryInterval plan
      (attemptReopen cfg retryInterval plan)
      else (pure () : M Unit)) w = _
    rw [if_neg (by rw [h]; simp)]
    rfl
  unfold settle
  rw [hdo]

theorem closeSink_settle (w : World) :
    settle closeSink w = { w with sink := { w.sink with
      shuttingDown := true, closed := true, retryArmed := false, isOpen := fun _ => false, size :=
      fun _ => 0 } } := rfl

theorem lifecycle_turn (t : Strand) (a : Turn) (h : Lifecycle cfg t) (ha : a.Reports) :
    Lifecycle cfg (t.turn cfg retryInterval serialize a) ∧
      ((t.turn cfg retryInterval serialize a).world.sink.shuttingDown = true ↔
        t.world.sink.shuttingDown = true ∨ a = .close) := by
  cases a with
  | write msg rcv plan =>
    unfold Strand.turn
    by_cases hclosed : t.world.sink.closed = true
    · dsimp only
      rw [write_closed cfg retryInterval serialize plan msg rcv t.world hclosed]
      exact ⟨h, by simp⟩
    · obtain ⟨hserving, hexpired⟩ := h.serving (by simpa using hclosed)
      have hran := settle_rule _ _ _ (guarded_failed cfg retryInterval plan ha.report _ t.world (Serving cfg)
        (doWrite_serves cfg retryInterval serialize plan ha msg rcv t.world hserving))
      obtain ⟨hlife, hshut⟩ := lifecycle_ran cfg _ hran
      rw [hexpired]
      refine ⟨hlife, ?_⟩
      rw [hshut, hserving.healthy.regular.shuttingDown]
      simp
  | close =>
    unfold Strand.turn
    rw [closeSink_settle]
    refine ⟨⟨h.startingUp, h.reopened, fun hc => ?_, fun _ hs => ?_,
      fun _ => ⟨⟨rfl, fun _ => ⟨rfl, rfl⟩⟩, rfl⟩⟩, ?_⟩
    · exact absurd hc (by simp)
    · exact absurd hs (by simp)
    · simp
  | expire =>
    unfold Strand.turn
    by_cases harmed : t.world.sink.retryArmed = true
    · have hclosed : t.world.sink.closed = true := by
        by_contra hc
        have harmed' := (h.serving (by simpa using hc)).1.healthy.armed
        rw [harmed] at harmed'
        cases harmed'
      rw [if_pos harmed]
      refine ⟨⟨h.startingUp, h.reopened, fun hc => ?_, fun _ hs => ?_, fun hs => ?_⟩, by simp⟩
      · exact absurd (hc.symm.trans hclosed) (by simp)
      · obtain ⟨hidle, hout, hone⟩ := h.failed hclosed hs
        refine ⟨hidle, hout, ?_⟩
        unfold Strand.retries at hone ⊢
        rw [if_pos harmed] at hone
        simp only [Bool.false_eq_true, if_false]
        omega
      · have harmed' := (h.closing hs).2
        rw [harmed] at harmed'
        cases harmed'
    · rw [if_neg harmed]
      exact ⟨h, by simp⟩
  | retry plan =>
    unfold Strand.turn
    by_cases hnone : t.expired = 0
    · dsimp only
      rw [if_pos hnone]
      exact ⟨h, by simp⟩
    · dsimp only
      rw [if_neg hnone]
      by_cases hshut : t.world.sink.shuttingDown = true
      · rw [retry_closing cfg retryInterval plan t.world hshut]
        refine ⟨⟨h.startingUp, h.reopened, fun hc => ?_, fun _ hs => ?_, h.closing⟩, by simp⟩
        · exact absurd (hc.symm.trans (h.closing hshut).1.1) (by simp)
        · exact absurd (hs.symm.trans hshut) (by simp)
      · have hshut : t.world.sink.shuttingDown = false := by simpa using hshut
        have hclosed : t.world.sink.closed = true := by
          by_contra hc
          exact hnone (h.serving (by simpa using hc)).2
        obtain ⟨hidle, -, hone⟩ := h.failed hclosed hshut
        unfold Strand.retries at hone
        have harmed : t.world.sink.retryArmed = false := by
          by_contra harmed
          rw [if_pos (by simpa using harmed)] at hone
          omega
        have hlast : t.expired - 1 = 0 := by omega
        have hbody := attemptReopen_serves cfg retryInterval plan ha t.world ⟨hshut, h.startingUp,
          h.reopened⟩ hidle harmed
        have hretry : wp (onRetry cfg retryInterval plan) (fun _ w' => Serving cfg w'.sink ∨
            Failed w'.sink) (fun _ _ => False) t.world := by
          unfold onRetry
          rw [wp_bind, wp_get, if_pos hshut]
          exact guarded_failed cfg retryInterval plan ha.report _ t.world (Serving cfg) hbody
        obtain ⟨hlife, hshut'⟩ := lifecycle_ran cfg _ (settle_rule _ _ _ hretry)
        rw [hlast]
        refine ⟨hlife, ?_⟩
        rw [hshut', hshut]
        simp
  | aborted => exact ⟨h, by simp [Strand.turn]⟩

theorem lifecycle_run (turns : List Turn) (t : Strand) (h : Lifecycle cfg t) (hturns : ∀ a ∈ turns, a.Reports) :
    Lifecycle cfg (t.run cfg retryInterval serialize turns) ∧
      ((t.run cfg retryInterval serialize turns).world.sink.shuttingDown = true ↔
        t.world.sink.shuttingDown = true ∨ .close ∈ turns) := by
  induction turns generalizing t with
  | nil => exact ⟨h, by simp [Strand.run]⟩
  | cons a turns ih =>
    obtain ⟨hlife, hshut⟩ := lifecycle_turn cfg retryInterval serialize t a h (hturns a List.mem_cons_self)
    obtain ⟨hlife', hshut'⟩ := ih _ hlife fun b hb => hturns b (List.mem_cons_of_mem a hb)
    refine ⟨hlife', ?_⟩
    rw [show t.run cfg retryInterval serialize (a :: turns) =
      (t.turn cfg retryInterval serialize a).run cfg retryInterval serialize turns from rfl, hshut', hshut,
      List.mem_cons, or_assoc, eq_comm (a := a)]

/-! ## Startup and shutdown -/

/-- A sink that cannot be opened at startup stays closed, without a retry. -/
theorem failSink_startup (plan : Plan) (reason : Bytes) (w : World) (h : w.sink.startingUp = true) :
    wp (failSink cfg retryInterval plan reason) (fun _ w' => w'.sink.closed = true) (fun _ _ => True) w := by
  unfold failSink
  simp only [wp_bind, wp_get, h, if_true]
  exact wp_mono _ _ _ _ _ _ (osLog_quiet plan _ w) (fun _ _ _ => rfl) (fun _ _ _ => trivial)

/-- The process goes on only with a sink that serves. -/
theorem startup_serving (w : World) (plan : Plan)
    (hrun : (Strand.startup cfg retryInterval serialize w plan).world.running = true) :
    Serving cfg (Strand.startup cfg retryInterval serialize w plan).world.sink := by
  have hopen : wp (handler cfg retryInterval serialize (.start true plan))
      (fun _ v => v.running = true → Serving cfg v.sink) (fun _ _ => True) w := by
    unfold handler openAtStartup onSink
    simp only [wp_bind, wp_modify, if_true]
    refine openFiles_same cfg retryInterval plan false _ (fun _ => rfl)
      (fun v => (!v.sink.closed) = true → Serving cfg { v.sink with startingUp := false }) _ ?_ ?_
      (fun _ _ _ _ => trivial)
    · intro v hsame hstreams _
      refine ⟨⟨⟨hsame.shuttingDown, rfl, hsame.reopened⟩, hsame.closed, ?_, hsame.armed⟩, hstreams⟩
      exact congrArg SinkRecovery.failures hsame.recovery
    · intro reason v hsame
      refine wp_mono _ _ _ _ _ _ (failSink_startup cfg retryInterval plan reason v hsame.startingUp) ?_
        (fun _ _ _ => trivial)
      intro _ v' hclosed halive
      rw [hclosed] at halive
      cases halive
  unfold Strand.startup step at hrun ⊢
  rw [if_neg (by simp [Event.isStart])] at hrun ⊢
  unfold wp at hopen
  cases hh : handler cfg retryInterval serialize (.start true plan) w with
  | mk r v =>
    rw [hh] at hrun hopen
    cases r with
    | ok _ => exact hopen hrun
    | error _ => cases hrun

theorem closed_twice (s : LogFile) (hshut : s.shuttingDown = true) (hdown : Down s)
    (harmed : s.retryArmed = false) :
    { s with
      shuttingDown := true, closed := true, retryArmed := false, isOpen := fun _ => false
      size := fun _ => 0 } = s := by
  have hopen : s.isOpen = fun _ => false := funext fun c => (hdown.2 c).1
  have hsize : s.size = fun _ => 0 := funext fun c => (hdown.2 c).2
  have hclosed := hdown.1
  cases s
  simp only [LogFile.mk.injEq, true_and, and_true]
  exact ⟨hopen.symm, hsize.symm, hclosed.symm, hshut.symm, harmed.symm⟩

/-- Nothing happens to a sink that was closed for good, nor to its files. -/
theorem turn_closing (t : Strand) (hshut : t.world.sink.shuttingDown = true) (hdown : Down t.world.sink)
    (harmed : t.world.sink.retryArmed = false) (a : Turn) :
    (t.turn cfg retryInterval serialize a).world = t.world := by
  cases a with
  | write msg rcv plan => exact write_closed cfg retryInterval serialize plan msg rcv t.world hdown.1
  | close =>
    change settle closeSink t.world = t.world
    rw [closeSink_settle, closed_twice t.world.sink hshut hdown harmed]
  | expire =>
    unfold Strand.turn
    rw [if_neg (by rw [harmed]; simp)]
  | retry plan =>
    unfold Strand.turn
    dsimp only
    split
    · rfl
    · exact retry_closing cfg retryInterval plan t.world hshut
  | aborted => rfl

theorem run_closing (turns : List Turn) (t : Strand) (hshut : t.world.sink.shuttingDown = true)
    (hdown : Down t.world.sink) (harmed : t.world.sink.retryArmed = false) :
    (t.run cfg retryInterval serialize turns).world = t.world := by
  induction turns generalizing t with
  | nil => rfl
  | cons a turns ih =>
    have hworld := turn_closing cfg retryInterval serialize t hshut hdown harmed a
    exact (ih _ (by rw [hworld]; exact hshut) (by rw [hworld]; exact hdown)
      (by rw [hworld]; exact harmed)).trans hworld

/-- The life of a sink that was opened at startup, in whatever order its handlers run and whatever fails in
them. -/
theorem sink_lifecycle (w : World) (plan : Plan) (turns : List Turn)
    (hstart : (Strand.startup cfg retryInterval serialize w plan).world.running = true)
    (hturns : ∀ a ∈ turns, a.Reports) (t : Strand)
    (ht : t = (Strand.startup cfg retryInterval serialize w plan).run cfg retryInterval serialize turns) :
    (.close ∉ turns → (t.world.sink.closed = true ↔ t.world.sink.recovery.failures ≠ 0) ∧
      (t.world.sink.closed = true ↔ t.retries = 1) ∧ (t.world.sink.closed = false → t.retries = 0)) ∧
    (t.world.sink.closed = true → ∀ c, t.world.sink.isOpen c = false ∧ t.world.sink.size c = 0) ∧
    (t.world.sink.closed = false → ∀ c, Chain.Configured cfg c → t.world.sink.isOpen c = true) ∧
    t.world.sink.reopened = false ∧
    (.close ∈ turns → t.world.sink.closed = true ∧ t.world.sink.retryArmed = false ∧
      ∀ later, (t.run cfg retryInterval serialize later).world = t.world) := by
  have hserving := startup_serving cfg retryInterval serialize w plan hstart
  obtain ⟨hlife₀, hshut₀⟩ := lifecycle_ran cfg _ (.inl hserving)
  obtain ⟨hlife, hshut⟩ := lifecycle_run cfg retryInterval serialize turns _ hlife₀ hturns
  change Lifecycle cfg ((Strand.startup cfg retryInterval serialize w plan).run cfg retryInterval serialize
    turns) at hlife
  change ((Strand.startup cfg retryInterval serialize w plan).run cfg retryInterval serialize
    turns).world.sink.shuttingDown = true ↔
    _ at hshut
  rw [hshut₀] at hshut
  rw [← ht] at hlife hshut
  refine ⟨?_, ?_, fun hc => (hlife.serving hc).1.streams, hlife.reopened, ?_⟩
  · intro hclose
    have hlive : t.world.sink.shuttingDown = false := by
      by_contra hs
      simp only [Bool.false_eq_true, false_or] at hshut
      exact hclose (hshut.mp (by simpa using hs))
    by_cases hclosed : t.world.sink.closed = true
    · obtain ⟨-, hout, hone⟩ := hlife.failed hclosed hlive
      refine ⟨iff_of_true hclosed hout, iff_of_true hclosed hone, fun hc => ?_⟩
      exact absurd (hc.symm.trans hclosed) (by simp)
    · obtain ⟨hs, hexpired⟩ := hlife.serving (by simpa using hclosed)
      have hnone : t.retries = 0 := by
        unfold Strand.retries
        rw [hs.healthy.armed, hexpired]
        rfl
      refine ⟨iff_of_false hclosed (by simp [hs.healthy.outage]), iff_of_false hclosed ?_, fun _ => hnone⟩
      rw [hnone]
      exact Nat.zero_ne_one
  · intro hclosed
    by_cases hs : t.world.sink.shuttingDown = true
    · exact (hlife.closing hs).1.2
    · exact (hlife.failed hclosed (by simpa using hs)).1
  · intro hclose
    obtain ⟨hdown, harmed⟩ := hlife.closing (hshut.mpr (.inr hclose))
    exact ⟨hdown.1, harmed, fun later => run_closing cfg retryInterval serialize later t
      (hshut.mpr (.inr hclose)) hdown harmed⟩

end Strand

/-- A rotation that cannot look at its files, and then an exception in the same handler. -/
def failsTwice : Plan where
  outcome call := if call = .probe .text 1 then .fails (ascii "Permission denied") else if call = .timestamp
    then .throws (ascii "bad_alloc") else .ok
  now := 0
  written _ := 0

def message (raw : String) (plan : Plan) : Turn := .write { raw := ascii raw } [] plan

/-- An outage with a retry that fails, one that works, and a third that is queued when the sink is closed. -/
def troubled : List Turn :=
  [message "abcd" .fine, message "efgh" failsTwice, .aborted, .expire,
    .retry (.fault (.openStream false .jsonl) 0), .expire, .retry .fine,
    message "ijkl" (.fault (.write .text) 2), .expire, .close, .retry .fine]

theorem fault_reports (call : Call) (n : ℕ) (h : call ≠ .report) : (Plan.fault call n).Reports where
  report := if_neg h.symm
  alive other := by
    unfold Plan.fault
    dsimp only
    split
    · simp
    · simp

theorem failsTwice_reports : failsTwice.Reports where
  report := rfl
  alive other := by
    unfold failsTwice
    dsimp only
    split_ifs
    · simp
    · simp
    · simp

theorem fine_reports : Plan.fine.Reports := ⟨rfl, fun _ => by simp [Plan.fine]⟩

theorem troubled_reports : ∀ a ∈ troubled, a.Reports := by
  intro a ha
  simp only [troubled, message, List.mem_cons, List.not_mem_nil, or_false] at ha
  obtain rfl | rfl | rfl | rfl | rfl | rfl | rfl | rfl | rfl | rfl | rfl := ha
  · exact fine_reports
  · exact failsTwice_reports
  · trivial
  · trivial
  · exact fault_reports _ _ (by simp)
  · trivial
  · exact fine_reports
  · exact fault_reports _ _ (by simp)
  · trivial
  · trivial
  · exact fine_reports

/-- The sink of the usual pair of files, on an empty disk. -/
def opened : Strand := Strand.startup pair SinkRecovery.kRetryInterval jsonText blank .fine

def afterTurns (turns : List Turn) : Strand := opened.run pair SinkRecovery.kRetryInterval jsonText turns

theorem sink_lifecycle_troubled :
    ((afterTurns (troubled.take 4)).retries = 1 ∧ (afterTurns (troubled.take 7)).retries = 0) ∧
      (afterTurns troubled).world.sink.closed = true ∧
      ∀ later, ((afterTurns troubled).run pair SinkRecovery.kRetryInterval jsonText later).world =
        (afterTurns troubled).world := by
  have hsome : ∀ n, ∀ a ∈ troubled.take n, a.Reports :=
    fun n a ha => troubled_reports a (List.mem_of_mem_take ha)
  have hdown := (sink_lifecycle pair SinkRecovery.kRetryInterval jsonText blank .fine (troubled.take 4) rfl
    (hsome 4) _ rfl).1
  have hback := (sink_lifecycle pair SinkRecovery.kRetryInterval jsonText blank .fine (troubled.take 7) rfl
    (hsome 7) _ rfl).1
  have hend := (sink_lifecycle pair SinkRecovery.kRetryInterval jsonText blank .fine troubled rfl
    troubled_reports _ rfl).2.2.2.2
  have hclosed : (afterTurns (troubled.take 4)).world.sink.closed = true := by decide +kernel
  have hopen : (afterTurns (troubled.take 7)).world.sink.closed = false := by decide +kernel
  refine ⟨⟨(hdown ?_).2.1.mp hclosed, (hback ?_).2.2 hopen⟩, (hend ?_).1, (hend ?_).2.2⟩
  · simp [troubled, message]
  · simp [troubled, message]
  · simp [troubled]
  · simp [troubled]

end Minilog.Output
