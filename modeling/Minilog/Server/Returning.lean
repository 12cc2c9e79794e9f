import Minilog.Output.Lifecycle
import Minilog.Server.Pipeline
import Minilog.Server.Shutdown

/-! The end of the whole server: the process with the sinks of its sections.

A `Plant` is a `Stage` whose sinks are those of `log_file.cpp`: when the handler of a sink runs, so does the
handler of the `Output.Strand`, and the timer is armed as that leaves it; a message goes where `dispatch`
sends it. That a closed sink arms nothing is then a fact about the sink (`Shut.turn`), and so is all that
`Obeys` asks of sinks and messages. -/
namespace Minilog.Server
open Lib Lib.Effect
open Minilog.Parser Minilog.Output
set_option autoImplicit false

/-! ## Sinks that are closed -/

/-- A sink whose `close` has run. -/
structure Shut (t : Output.Strand) : Prop where
  shuttingDown : t.world.sink.shuttingDown = true
  down : Down t.world.sink
  unarmed : t.world.sink.retryArmed = false

section Shut

variable (out : OutputConfig) (retryInterval : ℕ) (serialize : List (Bytes × Option Bytes) → Bytes)
  (t : Output.Strand)

theorem Shut.turn (h : Shut t) (a : Output.Turn) : Shut (t.turn out retryInterval serialize a) := by
  have hworld := turn_closing out retryInterval serialize t h.shuttingDown h.down h.unarmed a
  exact ⟨by rw [hworld]; exact h.shuttingDown, by rw [hworld]; exact h.down, by rw [hworld]; exact h.unarmed⟩

theorem shut_close : Shut (t.turn out retryInterval serialize .close) := by
  unfold Strand.turn
  rw [closeSink_settle]
  exact ⟨rfl, ⟨rfl, fun _ => ⟨rfl, rfl⟩⟩, rfl⟩

end Shut

/-! ## The number of sinks -/

def SameCount (p p' : Process) : Prop := p'.sinkCount = p.sinkCount

section Count

variable (turn : Turn)

theorem same_bind {α β : Type} (x : Task α) (f : α → Task β) (hx : Always SameCount x)
    (hf : ∀ a, Always SameCount (f a)) :
    Always SameCount (x >>= f) := always_bind SameCount (fun _ _ _ h h' => h'.trans h) x f hx hf

theorem same_get {α : Type} (f : Process → Task α) (hf : ∀ p, Always SameCount (f p)) :
    Always SameCount (Effect.get >>= f) :=
  same_bind _ _ (always_get SameCount fun _ => rfl) hf

theorem same_pure : Always SameCount (pure () : Task Unit) := always_pure SameCount (fun _ => rfl) ()

theorem same_ite (c : Prop) [Decidable c] (x y : Task Unit) (hx : Always SameCount x)
    (hy : Always SameCount y) :
    Always SameCount (if c then x else y) := by
  split
  · exact hx
  · exact hy

theorem same_modify (f : Process → Process) (h : ∀ p, (f p).sinkCount = p.sinkCount) :
    Always SameCount (Effect.modify f : Task Unit) := h

theorem same_attemptAt (s : Statement) : Always SameCount (attemptAt turn s) :=
  same_ite _ _ _ (always_raise SameCount (fun _ => rfl) ()) same_pure

theorem same_postEach (s : ℕ → Statement) (h : ℕ → Handler) (sinks : List ℕ) :
    Always SameCount (postEach turn s h sinks) := by
  induction sinks with
  | nil => exact same_pure
  | cons sink sinks ih =>
    exact same_bind _ _ (same_attemptAt turn _) fun _ => same_bind _ _ (same_modify _ fun _ => rfl) fun _ => ih

theorem same_adds {α : Type} (n : ℕ) (x : Task α) (h : Always (Adds n) x) : Always SameCount x := by
  have hcount : ∀ p p' : Process, Adds n p p' → SameCount p p' := by
    intro p p' ha
    change p'.settled.2.2.2.1 = p.settled.2.2.2.1
    rw [ha.settled]
  exact fun p => wp_mono _ _ _ _ _ _ (h p) (fun _ _ => hcount p _) (fun _ _ => hcount p _)

theorem same_sinkHandler (sink : ℕ) : Always SameCount (sinkHandler turn sink) := by
  refine same_modify _ fun p => ?_
  split
  · rfl
  · rfl

theorem same_parseAndDispatch : Always SameCount (parseAndDispatch turn) := by
  refine same_bind _ _ (same_attemptAt turn _) fun _ => same_bind _ _ (same_postEach turn _ _ _) fun _ => ?_
  refine same_get _ fun p => same_ite _ _ _ ?_ same_pure
  exact same_bind _ _ (same_attemptAt turn _) fun _ => same_modify _ fun _ => rfl

theorem same_onResolved (found : Bool) : Always SameCount (onResolved turn found) := by
  refine same_get _ fun p => same_ite _ _ _ same_pure ?_
  refine same_bind _ _ (same_attemptAt turn _) fun _ => same_ite _ _ _ same_pure ?_
  refine same_get _ fun p => same_ite _ _ _ same_pure ?_
  exact same_bind _ _ (same_attemptAt turn _) fun _ => same_modify _ fun _ => rfl

theorem same_stopServer : Always SameCount (stopServer turn) := by
  intro p
  exact stopServer_wp turn _ _ p (same_adds 0 _ (adds_reportDrops 0 turn true) (closedSocket p))

theorem same_onStop : Always SameCount (onStop turn) := by
  refine same_bind _ _ (same_attemptAt turn _) fun _ => same_bind _ _ (same_modify _ fun _ => rfl) fun _ => ?_
  refine same_get _ fun p => same_bind _ _ (same_postEach turn _ _ _) fun _ => same_ite _ _ _ ?_ same_pure
  exact same_bind _ _ (same_attemptAt turn _) fun _ => same_modify _ fun _ => rfl

/-- No handler makes a sink. -/
theorem handle_count (h : Handler) : Always SameCount (handle turn h) := by
  cases h with
  | received c => exact same_adds 0 _ (adds_onReceive 0 turn c)
  | rearm cancelled => exact same_ite _ _ _ same_pure (same_adds 0 _ (adds_receive 0 turn))
  | parse => exact same_parseAndDispatch turn
  | write sink => exact same_sinkHandler turn sink
  | reopen sink cancelled => exact same_ite _ _ _ same_pure (same_sinkHandler turn sink)
  | closeSink sink =>
    refine same_modify _ fun p => ?_
    split
    · rfl
    · rfl
  | forward => exact same_attemptAt turn _
  | resolved found => exact same_onResolved turn found
  | retryResolve cancelled =>
    refine same_get _ fun p => same_ite _ _ _ same_pure ?_
    exact same_bind _ _ (same_attemptAt turn _) fun _ => same_modify _ fun _ => rfl
  | stopForwarder => exact same_modify _ fun _ => rfl
  | stopServer => exact same_stopServer turn
  | signal => exact same_onStop turn

theorem next_count (p : Process) (o : Occurrence) : (next p o).sinkCount = p.sinkCount := by
  have hoccur : (occur p o).sinkCount = p.sinkCount := by
    cases o with
    | runs i turn =>
      unfold occur
      dsimp only
      cases hi : p.queue[i]? with
      | none => rfl
      | some h =>
        dsimp only
        have hrun := handle_count turn h { p with queue := p.queue.eraseIdx i }
        unfold wp SameCount at hrun
        unfold runHandler
        cases hh : handle turn h { p with queue := p.queue.eraseIdx i } with
        | mk r p' =>
          rw [hh] at hrun
          cases r with
          | ok _ => exact hrun
          | error _ =>
            dsimp only
            split
            · exact hrun
            · exact hrun
    | signalled =>
      unfold occur
      dsimp only
      split_ifs
      all_goals rfl
    | released bytes => rfl
    | received | rearmExpired | sinkTimerExpired | lookedUp | resolveTimerExpired =>
      unfold occur
      dsimp only
      split_ifs
      all_goals rfl
  unfold next
  split
  · rfl
  · dsimp only
    split
    · exact hoccur
    · exact hoccur

end Count

/-! ## The process with its sinks -/

structure Plant where
  stage : Stage
  sink : ℕ → Output.Strand

/-- What a handler works on: the message, the time of its receipt, and how the calls of a sink end. -/
structure Met where
  msg : SyslogMessage := {}
  rcv : Bytes := []
  plan : Plan := .fine

/-- What happens to a sink in an occurrence. -/
def sinkTurn (p : Process) (met : Met) : Occurrence → Option (ℕ × Output.Turn)
  | .sinkTimerExpired sink => some (sink, .expire)
  | .runs i _ =>
    match p.queue[i]? with
    | some (.write sink) => some (sink, .write met.msg met.rcv met.plan)
    | some (.reopen sink cancelled) => some (sink, if cancelled then .aborted else .retry met.plan)
    | some (.closeSink sink) => some (sink, .close)
    | _ => none
  | _ => none

/-- The numbers of the sections a message is dispatched to. -/
def sectionsOf (outs : List OutputConfig) (msg : SyslogMessage) : List ℕ :=
  (dispatch msg 0 outs).filterMap fun
    | .sink i => some i
    | .forwarder => none

section Plant

variable (retryInterval : ℕ) (serialize : List (Bytes × Option Bytes) → Bytes) (cfg : Config)

def Plant.turned (s : Plant) (o : Occurrence) (met : Met) : ℕ → Output.Strand :=
  match sinkTurn s.stage.process met o with
  | none => s.sink
  | some (i, a) =>
    Function.update s.sink i ((s.sink i).turn ((cfg.outputs[i]?).getD {}) retryInterval serialize a)

def Plant.next (s : Plant) (happening : Occurrence × Met) : Plant where
  stage := s.stage.next happening.1
  sink := if s.stage.process.returned then s.sink
    else s.turned retryInterval serialize cfg happening.1 happening.2

def Plant.run (s : Plant) (happenings : List (Occurrence × Met)) : Plant :=
  happenings.foldl (Plant.next retryInterval serialize cfg) s

/-- The run of a handler is that of the sections: the message goes where it is dispatched to, and a sink's
timer is armed as its handler leaves it. The posts of the stop and the report of an exception find the memory
they need. -/
structure Faithful (s : Plant) (i : ℕ) (turn : Turn) (met : Met) : Prop where
  routed : turn.sinks = if s.stage.process.queue[i]? = some .parse then sectionsOf cfg.outputs met.msg else []
  arms : ∀ h, s.stage.process.queue[i]? = some h → ∀ sink ∈ h.sink,
    turn.armsRetry = (s.turned retryInterval serialize cfg (.runs i turn) met sink).world.sink.retryArmed
  posted : turn.throws .postStop = false ∧ turn.throws .postStopForwarder = false ∧
    ∀ sink, turn.throws (.postClose sink) = false
  reported : turn.throws .unhandledLog = false

def Plant.Allows (s : Plant) (happening : Occurrence × Met) : Prop :=
  ∀ i turn, happening.1 = .runs i turn → Faithful retryInterval serialize cfg s i turn happening.2

def Plant.AllowsAll : Plant → List (Occurrence × Met) → Prop
  | _, [] => True
  | s, happening :: happenings =>
    s.Allows retryInterval serialize cfg happening ∧
      (s.next retryInterval serialize cfg happening).AllowsAll happenings

/-! ## What holds of every plant -/

/-- Every section has its sink, and those that the stop has closed stay so. -/
structure Plant.Kept (s : Plant) : Prop where
  count : s.stage.process.sinkCount = cfg.outputs.length
  shut : ∀ sink ∈ s.stage.closed, Shut (s.sink sink)

variable {cfg}

theorem sectionsOf_bounds (msg : SyslogMessage) :
    (sectionsOf cfg.outputs msg).length ≤ cfg.outputs.length ∧
      ∀ i ∈ sectionsOf cfg.outputs msg, i < cfg.outputs.length := by
  constructor
  · have hlen : ∀ (i : ℕ) (outs : List OutputConfig), (dispatch msg i outs).length ≤ outs.length := by
      intro i outs
      induction outs generalizing i with
      | nil => exact Nat.le_refl _
      | cons out outs ih =>
        have hrest := ih (i + 1)
        rw [dispatch]
        split
        · rw [List.length_cons, List.length_cons]
          omega
        · rw [List.length_cons]
          omega
    exact (List.length_filterMap_le _ _).trans (hlen 0 cfg.outputs)
  · intro i hi
    obtain ⟨strand, hstrand, hsome⟩ := List.mem_filterMap.mp hi
    obtain ⟨k, out, hk, -, rfl⟩ := (mem_dispatch msg 0 cfg.outputs strand).mp hstrand
    cases hsome
    rw [Nat.zero_add]
    exact (List.getElem?_eq_some_iff.mp hk).1

/-- A sink that is closed is closed after whatever happens. -/
theorem Plant.Kept.turned {s : Plant} (h : s.Kept cfg) (o : Occurrence) (met : Met) :
    ∀ sink ∈ s.stage.closed, Shut (s.turned retryInterval serialize cfg o met sink) := by
  intro sink hsink
  unfold Plant.turned
  cases sinkTurn s.stage.process met o with
  | none => exact h.shut sink hsink
  | some t =>
    obtain ⟨i, a⟩ := t
    dsimp only
    by_cases hi : sink = i
    · rw [hi, Function.update_self]
      exact Shut.turn _ _ _ _ (h.shut i (hi ▸ hsink)) a
    · rw [Function.update_of_ne hi]
      exact h.shut sink hsink

/-- What `Obeys` asks for is what the sections do. -/
theorem Faithful.obeys {s : Plant} (h : s.Kept cfg) (i : ℕ) (turn : Turn) (met : Met)
    (hf : Faithful retryInterval serialize cfg s i turn met) : Obeys s.stage i turn := by
  refine ⟨?_, fun x hx sink hsink hclosed => ?_, hf.posted, hf.reported⟩
  · rw [h.count, hf.routed]
    split
    · exact sectionsOf_bounds met.msg
    · exact ⟨Nat.zero_le _, fun _ hm => absurd hm List.not_mem_nil⟩
  · rw [hf.arms x hx sink hsink]
    exact (h.turned retryInterval serialize (.runs i turn) met sink hclosed).unarmed

theorem Plant.Kept.next {s : Plant} (h : s.Kept cfg) (happening : Occurrence × Met) :
    (s.next retryInterval serialize cfg happening).Kept cfg := by
  refine ⟨(next_count _ _).trans h.count, fun sink hsink => ?_⟩
  have hturned := h.turned retryInterval serialize happening.1 happening.2
  unfold Plant.next Stage.next at hsink ⊢
  dsimp only at hsink ⊢
  split
  · next hret =>
    rw [if_pos hret] at hsink
    exact h.shut sink hsink
  · next hret =>
    rw [if_neg hret] at hsink
    rcases List.mem_append.mp hsink with hsink | hsink
    · -- the sink is closed by this
      obtain ⟨o, met⟩ := happening
      unfold closing at hsink
      cases o with
      | runs i turn =>
        dsimp only at hsink
        split at hsink
        · next closed hi =>
          rw [Option.toList_some, List.mem_singleton] at hsink
          unfold Plant.turned sinkTurn
          dsimp only
          rw [hi, hsink]
          dsimp only
          rw [Function.update_self]
          exact shut_close _ _ _ _
        · cases hsink
      | _ => cases hsink
    · exact hturned sink hsink

theorem Plant.AllowsAll.stage {s : Plant} (h : s.Kept cfg) (happenings : List (Occurrence × Met))
    (hallows : s.AllowsAll retryInterval serialize cfg happenings) :
    AllowedAll s.stage (happenings.map Prod.fst) := by
  induction happenings generalizing s with
  | nil => trivial
  | cons happening happenings ih =>
    refine ⟨?_, ih (h.next retryInterval serialize happening) hallows.2⟩
    cases ho : happening.1 with
    | runs i turn => exact (hallows.1 i turn ho).obeys retryInterval serialize h
    | _ => trivial

theorem Plant.run_stage (s : Plant) (happenings : List (Occurrence × Met)) :
    (s.run retryInterval serialize cfg happenings).stage = s.stage.run (happenings.map Prod.fst) := by
  induction happenings generalizing s with
  | nil => rfl
  | cons happening happenings ih => exact ih (s.next retryInterval serialize cfg happening)

end Plant

/-- The server after its start, its sinks as they may be then. -/
def Plant.started (cfg : Config) (service lookup : Bool) (sink : ℕ → Output.Strand) : Plant :=
  ⟨startedStage service lookup cfg.forwarding.enabled cfg.outputs.length cfg.maxQueueBytes, sink⟩

/-- Once a stop has been requested and its handlers have run, the process returns, in whatever order the rest
is done and whatever throws: at most so many handlers and completions are left, and as long as it has not
returned there is one more to come. -/
theorem shutdown_returns (retryInterval : ℕ) (serialize : List (Bytes × Option Bytes) → Bytes)
    (cfg : Config) (service lookup : Bool) (hlookup : lookup = true → cfg.forwarding.enabled = true)
    (sink : ℕ → Output.Strand) (before after : List (Occurrence × Met))
    (hallowed : (Plant.started cfg service lookup sink).AllowsAll retryInterval serialize cfg (before ++ after))
    (hrequested : ((Plant.started cfg service lookup sink).run retryInterval serialize cfg
      before).stage.process.stopRequested = true)
    (hstopped : ∀ h ∈ ((Plant.started cfg service lookup sink).run retryInterval serialize cfg
      before).stage.process.queue,
        h.ofStop = false) :
    let s := (Plant.started cfg service lookup sink).run retryInterval serialize cfg before
    let s' := s.run retryInterval serialize cfg after
    effectiveSteps s.stage (after.map Prod.fst) ≤ (cfg.outputs.length + 4) * s.stage.process.queue.length + 5 ∧
      (s'.stage.process.returned = false → ∃ o, Effective s'.stage.process o = true) := by
  intro s s'
  have hkept : (Plant.started cfg service lookup sink).Kept cfg := ⟨rfl, fun _ h => absurd h List.not_mem_nil⟩
  have hstage := hallowed.stage retryInterval serialize hkept
  rw [List.map_append] at hstage
  rw [Plant.run_stage] at hrequested hstopped
  have hreturns := stage_returns _
    (started_sound service lookup cfg.forwarding.enabled hlookup cfg.outputs.length cfg.maxQueueBytes)
    (fun _ => rfl) _ _ hstage hrequested hstopped
  have hcount : (Plant.run retryInterval serialize cfg
      (Plant.started cfg service lookup sink) before).stage.process.sinkCount = cfg.outputs.length := by
    suffices hrun : ∀ (happenings : List (Occurrence × Met)) (s : Plant), s.Kept cfg →
        (s.run retryInterval serialize cfg happenings).Kept cfg from (hrun before _ hkept).count
    intro happenings
    induction happenings with
    | nil => exact fun s h => h
    | cons happening happenings ih => exact fun s h => ih _ (h.next retryInterval serialize happening)
  rw [Plant.run_stage] at hcount
  change _ ≤ ((Stage.run (Plant.started cfg service lookup sink).stage
    (before.map Prod.fst)).process.sinkCount + 4) * _ + 5 ∧ _ at hreturns
  rw [hcount] at hreturns
  unfold s' s
  rw [Plant.run_stage, Plant.run_stage, Plant.run_stage]
  exact hreturns

/-! ## A run -/

/-- What `Faithful` asks of a handler in which nothing throws. -/
def Plant.plain (retryInterval : ℕ) (serialize : List (Bytes × Option Bytes) → Bytes) (cfg : Config)
    (s : Plant) (i : ℕ) (turn : Turn) (met : Met) : Bool :=
  decide (turn.sinks = if s.stage.process.queue[i]? = some .parse then sectionsOf cfg.outputs met.msg
    else []) && (s.stage.process.queue[i]?.bind Handler.sink).all fun sink =>
      turn.armsRetry == (s.turned retryInterval serialize cfg (.runs i turn) met sink).world.sink.retryArmed

def Plant.plainAll (retryInterval : ℕ) (serialize : List (Bytes × Option Bytes) → Bytes) (cfg : Config) :
    Plant → List (Occurrence × Met) → Bool
  | _, [] => true
  | s, (o, met) :: happenings =>
    (match o with
      | .runs i turn => s.plain retryInterval serialize cfg i turn met
      | _ =>
        true) && (s.next retryInterval serialize cfg (o, met)).plainAll retryInterval serialize cfg happenings

theorem Plant.plainAll_allows (retryInterval : ℕ) (serialize : List (Bytes × Option Bytes) → Bytes)
    (cfg : Config) (s : Plant) (happenings : List (Occurrence × Met))
    (hthrows : ∀ x ∈ happenings, ∀ i turn, x.1 = .runs i turn → turn.throws = fun _ => false)
    (hplain : s.plainAll retryInterval serialize cfg happenings = true) :
    s.AllowsAll retryInterval serialize cfg happenings := by
  induction happenings generalizing s with
  | nil => trivial
  | cons x happenings ih =>
    obtain ⟨o, met⟩ := x
    obtain ⟨hfirst, hrest⟩ := Bool.and_eq_true_iff.mp hplain
    refine ⟨?_, ih _ (fun y hy => hthrows y (List.mem_cons_of_mem _ hy)) hrest⟩
    rintro i turn rfl
    obtain ⟨hrouted, harms⟩ := Bool.and_eq_true_iff.mp hfirst
    have hno := hthrows _ List.mem_cons_self i turn rfl
    refine ⟨of_decide_eq_true hrouted, fun h hh sink hsink => ?_, ?_, ?_⟩
    · rw [hh, Option.bind_some, Option.mem_def.mp hsink, Option.all_some] at harms
      exact eq_of_beq harms
    · rw [hno]
      exact ⟨rfl, rfl, fun _ => rfl⟩
    · rw [hno]

/-- One section, for everything, and a forwarder whose host is a name. -/
def oneSection : Config where
  maxQueueBytes := 100
  outputs := [{ name := ascii "all", textFile := ascii "/d/all.log" }]
  forwarding := { enabled := true }

def openedSink : Output.Strand :=
  Strand.startup { name := ascii "all", textFile := ascii "/d/all.log" } SinkRecovery.kRetryInterval
    jsonText { disk := fun _ => none } .fine

/-- The disk is full when the first message is written, and the sink waits for a retry. Then the handlers of a
stop run in front of that of a second datagram, while a lookup is pending. -/
def stopped : List (Occurrence × Met) :=
  [(.received (.datagram 100), {}), (.runs 0 {}, {}), (.runs 0 { sinks := [0] }, {}),
    (.runs 0 { armsRetry := true }, { plan := .fault (.write .text) 0 }), (.runs 0 {}, {}), (.released 100, {}),
    (.received (.datagram 100), {}), (.signalled, {}), (.runs 1 {}, {}), (.runs 1 {}, {}), (.runs 1 {}, {}),
    (.runs 1 {}, {})]

/-- The message of the second datagram still goes to the sink, which is closed. -/
def wound : List (Occurrence × Met) :=
  [(.runs 0 {}, {}), (.runs 0 {}, {}), (.runs 0 {}, {}), (.runs 0 { sinks := [0] }, {}), (.runs 0 {}, {}),
    (.runs 0 {}, {}), (.lookedUp true, {}), (.runs 0 {}, {})]

theorem shutdown_returns_outage :
    let s := (Plant.started oneSection false true fun _ =>
      openedSink).run SinkRecovery.kRetryInterval jsonText oneSection stopped
    s.stage.process.queue = [.received (.datagram 100), .reopen 0 true] ∧ s.stage.process.lookup = true ∧
      (s.run SinkRecovery.kRetryInterval jsonText oneSection wound).stage.process.returned = true ∧
      effectiveSteps s.stage (wound.map Prod.fst) = 8 ∧ effectiveSteps s.stage (wound.map Prod.fst) ≤ 15 := by
  have hthrows : ∀ x ∈ stopped ++ wound, ∀ i turn, x.1 = .runs i turn → turn.throws = fun _ => false := by
    intro x hx i turn ho
    simp only [stopped, wound, List.cons_append, List.nil_append, List.mem_cons, List.not_mem_nil,
      or_false] at hx
    rcases hx with rfl | rfl | rfl | rfl | rfl | rfl | rfl | rfl | rfl | rfl | rfl | rfl | rfl | rfl | rfl |
      rfl | rfl | rfl | rfl | rfl
    all_goals cases ho
    all_goals rfl
  have hreturns := (shutdown_returns SinkRecovery.kRetryInterval jsonText oneSection false true
    (fun _ => rfl) (fun _ => openedSink) stopped wound
    (Plant.plainAll_allows _ _ _ _ _ hthrows (by decide +kernel)) (by decide +kernel) (by decide +kernel)).1
  have hqueue : ((Plant.started oneSection false true fun _ =>
      openedSink).run SinkRecovery.kRetryInterval jsonText oneSection stopped).stage.process.queue =
        [.received (.datagram 100), .reopen 0 true] := by decide +kernel
  refine ⟨hqueue, by decide +kernel, by decide +kernel, by decide +kernel, ?_⟩
  rw [hqueue] at hreturns
  exact hreturns

end Minilog.Server
