import Minilog.Server.EventLoop

/-! Whether a stop comes to its end.

`io_context::run` returns when nothing is outstanding, so everything that could go on by itself has to be
taken away by the handlers of the stop: the receive and its re-arm timer, the retry timers of the sinks and
the lookups of the forwarder. A `Stage` is a process with the sinks whose `close` has run (`m_shuttingDown`);
`Sound` says what the handlers of the stop have left behind, and `cost` how much can still happen then. -/
namespace Minilog.Server
open Lib Lib.Effect
set_option autoImplicit false

/-! ## Handlers -/

def Handler.ofStop : Handler → Bool
  | .signal | .stopServer | .closeSink _ | .stopForwarder => true
  | _ => false

/-- The handlers of the forwarder's lookups. -/
def Handler.resolves : Handler → Bool
  | .resolved _ | .retryResolve _ => true
  | _ => false

/-- The sink whose retry timer the handler may arm. -/
def Handler.sink : Handler → Option ℕ
  | .write sink => some sink
  | .reopen sink _ => some sink
  | _ => none

/-- A handler of one of the `n` sinks, or of the receive path. -/
def Ordinary (n : ℕ) (h : Handler) : Prop := h.ofStop = false ∧ h.resolves = false ∧ ∀ sink ∈ h.sink, sink < n

/-- How many handlers can come of one, with itself, once the socket is closed. -/
def weight (n : ℕ) : Handler → ℕ
  | .received (.datagram _) => n + 4
  | .received (.failed (.other _)) => 4
  | .rearm false => 2
  | .parse => n + 2
  | _ => 1

/-- How much can still happen. -/
def cost (p : Process) : ℕ := (p.queue.map (weight p.sinkCount)).sum + 3 * p.rearming.toNat + 2 * p.lookup.toNat

/-! ## Stages -/

structure Stage where
  process : Process
  closed : List ℕ := []

/-- The sink that is closed by an occurrence. -/
def closing (p : Process) : Occurrence → Option ℕ
  | .runs i _ =>
    match p.queue[i]? with
    | some (.closeSink sink) => some sink
    | _ => none
  | _ => none

def Stage.next (s : Stage) (o : Occurrence) : Stage :=
  { process := Server.next s.process o,
    closed := if s.process.returned then s.closed else (closing s.process o).toList ++ s.closed }

def Stage.run (s : Stage) (occurrences : List Occurrence) : Stage := occurrences.foldl Stage.next s

/-- What the source sees to in the run of a handler: a message goes to sinks that there are, each once, and a
sink that was closed does not arm its timer (`Faithful.obeys`). Beyond that, the stop itself and the report of
an exception find the memory they need. -/
structure Obeys (s : Stage) (i : ℕ) (turn : Turn) : Prop where
  routed : turn.sinks.length ≤ s.process.sinkCount ∧ ∀ sink ∈ turn.sinks, sink < s.process.sinkCount
  quiet : ∀ h, s.process.queue[i]? = some h → ∀ sink ∈ h.sink, sink ∈ s.closed → turn.armsRetry = false
  posted : turn.throws .postStop = false ∧ turn.throws .postStopForwarder = false ∧
    ∀ sink, turn.throws (.postClose sink) = false
  reported : turn.throws .unhandledLog = false

def Allowed (s : Stage) : Occurrence → Prop
  | .runs i turn => Obeys s i turn
  | _ => True

def AllowedAll : Stage → List Occurrence → Prop
  | _, [] => True
  | s, o :: occurrences => Allowed s o ∧ AllowedAll (s.next o) occurrences

/-- Something happens: a queued handler runs, or what was pending completes. -/
def Effective (p : Process) : Occurrence → Bool
  | .runs i _ => i < p.queue.length
  | .rearmExpired => p.rearming
  | .lookedUp _ => p.lookup
  | _ => false

/-- How many occurrences do something before the process returns. -/
def effectiveSteps : Stage → List Occurrence → ℕ
  | _, [] => 0
  | s, o :: occurrences =>
    (if s.process.returned = false ∧ Effective s.process o = true then 1 else 0) +
      effectiveSteps (s.next o) occurrences

/-! ## What holds of every stage -/

/-- What a stop has not taken away yet has a handler that will. -/
structure Sound (s : Stage) : Prop where
  idle : s.process.stopRequested = false → ∀ h ∈ s.process.queue, h.ofStop = false
  waiter : s.process.stopRequested = true → s.process.waiter = false
  server : s.process.stopRequested = true → .signal ∈ s.process.queue ∨ .stopServer ∈ s.process.queue ∨
    s.process.socketOpen = false
  sinks : s.process.stopRequested = true →
    .signal ∈ s.process.queue ∨ ∀ sink < s.process.sinkCount, .closeSink sink ∈ s.process.queue ∨
    sink ∈ s.closed
  forwarder : s.process.stopRequested = true → s.process.forwarding = true →
    .signal ∈ s.process.queue ∨ .stopForwarder ∈ s.process.queue ∨ s.process.forwarderStopping = true
  receiving : s.process.socketOpen = false → s.process.receiving = false
  resolveTimer : s.process.forwarderStopping = true → s.process.resolveTimer = false
  noForwarder : s.process.forwarding = false →
    s.process.lookup = false ∧ s.process.resolveTimer = false ∧ ∀ h ∈ s.process.queue, h.resolves = false
  range : (∀ h ∈ s.process.queue, ∀ sink ∈ h.sink, sink < s.process.sinkCount) ∧
    ∀ sink ∈ s.process.sinkTimers, sink < s.process.sinkCount
  timers : ∀ sink ∈ s.closed, sink ∉ s.process.sinkTimers
  nodup : s.process.sinkTimers.Nodup

/-- The handlers of the stop have run. -/
structure Winding (s : Stage) : Prop where
  sound : Sound s
  requested : s.process.stopRequested = true
  none : ∀ h ∈ s.process.queue, h.ofStop = false

theorem Winding.socketClosed {s : Stage} (h : Winding s) : s.process.socketOpen = false := by
  rcases h.sound.server h.requested with hmem | hmem | hclosed
  · cases h.none _ hmem
  · cases h.none _ hmem
  · exact hclosed

theorem Winding.sinkTimers {s : Stage} (h : Winding s) : s.process.sinkTimers = [] := by
  rw [List.eq_nil_iff_forall_not_mem]
  intro sink hsink
  rcases h.sound.sinks h.requested with hmem | hall
  · cases h.none _ hmem
  · rcases hall sink (h.sound.range.2 sink hsink) with hmem | hclosed
    · cases h.none _ hmem
    · exact h.sound.timers sink hclosed hsink

theorem Winding.resolveTimer {s : Stage} (h : Winding s) : s.process.resolveTimer = false := by
  cases hf : s.process.forwarding with
  | false => exact (h.sound.noForwarder hf).2.1
  | true =>
    rcases h.sound.forwarder h.requested hf with hmem | hmem | hstopping
    · cases h.none _ hmem
    · cases h.none _ hmem
    · exact h.sound.resolveTimer hstopping

/-- A lookup that ends finds the forwarder stopping. -/
theorem Winding.stopping {s : Stage} (h : Winding s) (x : Handler) (hx : x ∈ s.process.queue)
    (hr : x.resolves = true) :
    s.process.forwarderStopping = true := by
  cases hf : s.process.forwarding with
  | false =>
    have hnone := (h.sound.noForwarder hf).2.2 x hx
    rw [hr] at hnone
    cases hnone
  | true =>
    rcases h.sound.forwarder h.requested hf with hmem | hmem | hstopping
    · cases h.none _ hmem
    · cases h.none _ hmem
    · exact hstopping

/-- As long as the process goes on there is something left to do, and it can be done. -/
theorem Winding.effective {s : Stage} (h : Winding s) (hout : outstanding s.process = true) :
    ∃ o, Effective s.process o = true := by
  unfold outstanding at hout
  rw [h.sound.receiving h.socketClosed, h.resolveTimer, h.sound.waiter h.requested, h.sinkTimers] at hout
  simp only [Bool.false_or, Bool.or_false, List.isEmpty_nil, Bool.not_true, Bool.or_eq_true] at hout
  rcases hout with (hr | hl) | hq
  · exact ⟨.rearmExpired, hr⟩
  · exact ⟨.lookedUp true, hl⟩
  · refine ⟨.runs 0 {}, decide_eq_true (List.length_pos_iff.mpr fun hnil => ?_)⟩
    rw [hnil] at hq
    cases hq

/-! ## The receive path -/

/-- What the handlers of the receive path leave alone. -/
def Process.settled (p : Process) : Bool × Bool × Bool × ℕ × Bool × Bool × List ℕ × Bool × Bool :=
  (p.socketOpen, p.stopRequested, p.waiter, p.sinkCount, p.forwarding, p.forwarderStopping, p.sinkTimers,
    p.lookup, p.resolveTimer)

/-- What they may do besides. -/
structure Adds (n : ℕ) (p p' : Process) : Prop where
  queue : ∃ new, p'.queue = p.queue ++ new ∧ ∀ h ∈ new, Ordinary n h
  receiving : p'.receiving = true → p.receiving = true ∨ p.socketOpen = true
  settled : p'.settled = p.settled

section Adds

variable (n : ℕ) (turn : Turn)

theorem Adds.refl (p : Process) : Adds n p p :=
  ⟨⟨[], (List.append_nil _).symm, fun _ h => absurd h List.not_mem_nil⟩, .inl, rfl⟩

theorem Adds.trans (p p' p'' : Process) (h : Adds n p p') (h' : Adds n p' p'') : Adds n p p'' := by
  obtain ⟨new, hnew, hall⟩ := h.queue
  obtain ⟨more, hmore, hall'⟩ := h'.queue
  have hopen : p'.socketOpen = p.socketOpen := congrArg Prod.fst h.settled
  refine ⟨⟨new ++ more, by rw [hmore, hnew, List.append_assoc], List.forall_mem_append.mpr ⟨hall, hall'⟩⟩,
    fun hr => ?_, h'.settled.trans h.settled⟩
  rcases h'.receiving hr with hr | ho
  · exact h.receiving hr
  · exact .inr (hopen ▸ ho)

theorem adds_bind {α β : Type} (x : Task α) (f : α → Task β) (hx : Always (Adds n) x)
    (hf : ∀ a, Always (Adds n) (f a)) :
    Always (Adds n) (x >>= f) := always_bind _ (Adds.trans n) x f hx hf

theorem adds_pure : Always (Adds n) (pure () : Task Unit) := always_pure _ (Adds.refl n) ()

theorem adds_ite {α : Type} (c : Prop) [Decidable c] (x y : Task α) (hx : Always (Adds n) x)
    (hy : Always (Adds n) y) :
    Always (Adds n) (if c then x else y) := by
  split
  · exact hx
  · exact hy

theorem adds_attemptAt (s : Statement) : Always (Adds n) (attemptAt turn s) :=
  adds_ite n _ _ _ (always_raise _ (Adds.refl n) ()) (adds_pure n)

/-- A change of the rest of the state. -/
theorem adds_rest (f : Process → Process)
    (h : ∀ p, (f p).queue = p.queue ∧ (f p).receiving = p.receiving ∧ (f p).settled = p.settled) :
    Always (Adds n) (Effect.modify f : Task Unit) := by
  intro p
  obtain ⟨hq, hr, hs⟩ := h p
  exact ⟨⟨[], by rw [hq, List.append_nil], fun _ h => absurd h List.not_mem_nil⟩, fun h => .inl (hr ▸ h), hs⟩

theorem adds_post (h : Handler) (hh : Ordinary n h) : Always (Adds n) (post h) := by
  intro p
  refine ⟨⟨[h], rfl, fun x hx => ?_⟩, .inl, rfl⟩
  rw [List.mem_singleton.mp hx]
  exact hh

theorem adds_postEach (s : ℕ → Statement) (h : ℕ → Handler) (sinks : List ℕ)
    (hh : ∀ sink ∈ sinks, Ordinary n (h sink)) :
    Always (Adds n) (postEach turn s h sinks) := by
  induction sinks with
  | nil => exact adds_pure n
  | cons sink sinks ih =>
    obtain ⟨hsink, hsinks⟩ := List.forall_mem_cons.mp hh
    exact adds_bind n _ _ (adds_attemptAt n turn _) fun _ => adds_bind n _ _ (adds_post n _ hsink) fun _ =>
      ih hsinks

theorem adds_log (s : Statement) (line : Bytes) : Always (Adds n) (log turn s line) :=
  adds_bind n _ _ (adds_attemptAt n turn s) fun _ => adds_rest n _ fun _ => ⟨rfl, rfl, rfl⟩

theorem ordinary_received (c : Completion) : Ordinary n (.received c) := ⟨rfl, rfl, fun sink h => by cases h⟩

theorem adds_receive : Always (Adds n) (receive turn) := by
  refine adds_bind n _ _ (adds_attemptAt n turn _) fun _ p => ?_
  rw [wp_bind, wp_get]
  split
  case isTrue hopen => exact ⟨⟨[], (List.append_nil _).symm, fun _ h => absurd h List.not_mem_nil⟩,
    fun _ => .inr hopen, rfl⟩
  case isFalse => exact adds_post n _ (ordinary_received n _) p

theorem adds_reportDrops (force : Bool) : Always (Adds n) (reportDrops turn force) := by
  refine adds_bind n _ _ (always_get _ (Adds.refl n)) fun p => adds_ite n _ _ _ (adds_pure n) ?_
  refine adds_bind n _ _ (adds_rest n _ fun _ => ⟨rfl, rfl, rfl⟩) fun _ => ?_
  refine adds_ite n _ _ _ (adds_pure n) (adds_bind n _ _ (adds_attemptAt n turn _) fun _ => ?_)
  exact adds_bind n _ _ (adds_rest n _ fun _ => ⟨rfl, rfl, rfl⟩) fun _ => adds_log n turn _ _

theorem adds_onReceive (c : Completion) : Always (Adds n) (onReceive turn c) := by
  cases c with
  | failed ec =>
    cases ec with
    | operationAborted => exact adds_pure n
    | badDescriptor => exact adds_pure n
    | other message =>
      have harm : Always (Adds n) (attemptAt turn .armTimer >>= fun _ => Effect.modify fun p =>
          { p with rearming := true }) :=
        adds_bind n _ _ (adds_attemptAt n turn _) fun _ => adds_rest n _ fun _ => ⟨rfl, rfl, rfl⟩
      refine adds_bind n _ _ (always_get _ (Adds.refl n)) fun p => ?_
      refine adds_bind n _ _ (adds_rest n _ fun _ => ⟨rfl, rfl, rfl⟩) fun _ => ?_
      exact adds_ite n _ _ _ (adds_bind n _ _ (adds_log n turn _ _) fun _ => harm) harm
  | datagram bytes =>
    have hdeliver : ∀ p : Process, Always (Adds n) (do
        Effect.modify fun p => { p with admission := (p.admission.charge bytes).2 }
        if (p.admission.charge bytes).1 = false then
          reportDrops turn false
          receive turn
        else
          attemptAt turn .token
          attemptAt turn .copyData
          attemptAt turn .copyAddress
          receive turn
          attemptAt turn .post
          post .parse) := by
      intro p
      refine adds_bind n _ _ (adds_rest n _ fun _ => ⟨rfl, rfl, rfl⟩) fun _ => adds_ite n _ _ _ ?_ ?_
      · exact adds_bind n _ _ (adds_reportDrops n turn false) fun _ => adds_receive n turn
      · refine adds_bind n _ _ (adds_attemptAt n turn _) fun _ =>
          adds_bind n _ _ (adds_attemptAt n turn _) fun _ => ?_
        refine adds_bind n _ _ (adds_attemptAt n turn _) fun _ =>
          adds_bind n _ _ (adds_receive n turn) fun _ => ?_
        exact adds_bind n _ _ (adds_attemptAt n turn _) fun _ => adds_post n _ ⟨rfl, rfl,
          fun sink h => by cases h⟩
    refine adds_bind n _ _ (always_get _ (Adds.refl n)) fun p => ?_
    refine adds_bind n _ _ (adds_rest n _ fun _ => ⟨rfl, rfl, rfl⟩) fun _ => ?_
    exact adds_ite n _ _ _ (adds_bind n _ _ (adds_log n turn _ _) fun _ => hdeliver p) (hdeliver p)

theorem adds_parseAndDispatch (hsinks : ∀ sink ∈ turn.sinks, sink < n) :
    Always (Adds n) (parseAndDispatch turn) := by
  have hwrite : ∀ sink ∈ turn.sinks, Ordinary n (.write sink) := fun sink hsink =>
    ⟨rfl, rfl, fun x hx => by cases hx; exact hsinks sink hsink⟩
  refine adds_bind n _ _ (adds_attemptAt n turn _) fun _ =>
    adds_bind n _ _ (adds_postEach n turn _ _ _ hwrite) fun _ => ?_
  refine adds_bind n _ _ (always_get _ (Adds.refl n)) fun p => adds_ite n _ _ _ ?_ (adds_pure n)
  exact adds_bind n _ _ (adds_attemptAt n turn _) fun _ => adds_post n _ ⟨rfl, rfl, fun sink h => by cases h⟩

end Adds

/-! ## Soundness -/

/-- What does not touch the stop: its handlers stay, and nothing that it has taken away comes back. -/
structure Harmless (closed : List ℕ) (p p' : Process) : Prop where
  same : p'.socketOpen = p.socketOpen ∧ p'.stopRequested = p.stopRequested ∧ p'.waiter = p.waiter ∧
    p'.sinkCount = p.sinkCount ∧
    p'.forwarding = p.forwarding ∧ p'.forwarderStopping = p.forwarderStopping
  kept : ∀ h ∈ p.queue, h.ofStop = true → h ∈ p'.queue
  added : ∀ h ∈ p'.queue, h ∈ p.queue ∨
    h.ofStop = false ∧ (h.resolves = true → p.forwarding = true) ∧ ∀ sink ∈ h.sink, sink < p.sinkCount
  receiving : p'.receiving = true → p.receiving = true ∨ p.socketOpen = true
  resolveTimer : p'.resolveTimer = true → p.resolveTimer = true ∨ p.forwarderStopping = false ∧
    p.forwarding = true
  lookup : p'.lookup = true → p.lookup = true ∨ p.forwarding = true
  timers : ∀ sink ∈ p'.sinkTimers, sink ∈ p.sinkTimers ∨ sink < p.sinkCount ∧ sink ∉ closed
  nodup : p.sinkTimers.Nodup → p'.sinkTimers.Nodup

theorem Sound.harmless {p p' : Process} {closed : List ℕ} (hs : Sound ⟨p, closed⟩)
    (h : Harmless closed p p') : Sound ⟨p', closed⟩ := by
  obtain ⟨hopen, hstop, hwaiter, hcount, hforwarding, hstopping⟩ := h.same
  refine ⟨fun hr x hx => ?_, fun hr => ?_, fun hr => ?_, fun hr => ?_, fun hr hf => ?_, fun ho => ?_,
    fun hstop' => ?_, fun hf => ?_, ⟨fun x hx sink hsink => ?_, fun sink hsink => ?_⟩,
    fun sink hsink hmem => ?_, h.nodup hs.nodup⟩
  · rcases h.added x hx with hold | ⟨hnew, -⟩
    · exact hs.idle (hstop ▸ hr) x hold
    · exact hnew
  · exact hwaiter.trans (hs.waiter (hstop ▸ hr))
  · rcases hs.server (hstop ▸ hr) with hmem | hmem | hclosed
    · exact .inl (h.kept _ hmem rfl)
    · exact .inr (.inl (h.kept _ hmem rfl))
    · exact .inr (.inr (hopen.trans hclosed))
  · rcases hs.sinks (hstop ▸ hr) with hmem | hall
    · exact .inl (h.kept _ hmem rfl)
    · exact .inr fun sink hsink => (hall sink (hcount ▸ hsink)).imp (fun hmem => h.kept _ hmem rfl) id
  · rcases hs.forwarder (hstop ▸ hr) (hforwarding ▸ hf) with hmem | hmem | hstopped
    · exact .inl (h.kept _ hmem rfl)
    · exact .inr (.inl (h.kept _ hmem rfl))
    · exact .inr (.inr (hstopping.trans hstopped))
  · have ho' : p.socketOpen = false := hopen ▸ ho
    refine Bool.eq_false_iff.mpr fun hr => ?_
    rcases h.receiving hr with hold | hsocket
    · exact Bool.false_ne_true ((hs.receiving ho').symm.trans hold)
    · exact Bool.false_ne_true (ho'.symm.trans hsocket)
  · have hstop'' : p.forwarderStopping = true := hstopping ▸ hstop'
    refine Bool.eq_false_iff.mpr fun hr => ?_
    rcases h.resolveTimer hr with hold | ⟨hnot, -⟩
    · exact Bool.false_ne_true ((hs.resolveTimer hstop'').symm.trans hold)
    · exact Bool.false_ne_true (hnot.symm.trans hstop'')
  · have hf' : p.forwarding = false := hforwarding ▸ hf
    obtain ⟨hl, ht, hq⟩ := hs.noForwarder hf'
    refine ⟨Bool.eq_false_iff.mpr fun hr => ?_, Bool.eq_false_iff.mpr fun hr => ?_, fun x hx => ?_⟩
    · rcases h.lookup hr with hold | hyes
      · exact Bool.false_ne_true (hl.symm.trans hold)
      · exact Bool.false_ne_true (hf'.symm.trans hyes)
    · rcases h.resolveTimer hr with hold | ⟨-, hyes⟩
      · exact Bool.false_ne_true (ht.symm.trans hold)
      · exact Bool.false_ne_true (hf'.symm.trans hyes)
    · rcases h.added x hx with hold | ⟨-, hyes, -⟩
      · exact hq x hold
      · exact Bool.eq_false_iff.mpr fun hr => Bool.false_ne_true (hf'.symm.trans (hyes hr))
  · change sink < p'.sinkCount
    rw [hcount]
    rcases h.added x hx with hold | ⟨-, -, hlt⟩
    · exact hs.range.1 x hold sink hsink
    · exact hlt sink hsink
  · change sink < p'.sinkCount
    rw [hcount]
    rcases h.timers sink hsink with hold | ⟨hlt, -⟩
    · exact hs.range.2 sink hold
    · exact hlt
  · rcases h.timers sink hmem with hold | ⟨-, hnot⟩
    · exact hs.timers sink hsink hold
    · exact hnot hsink

/-- What is left when a handler is taken out of the queue. -/
theorem mem_eraseIdx_other {queue : List Handler} {i : ℕ} {h x : Handler} (hi : queue[i]? = some h)
    (hne : x ≠ h) (hx : x ∈ queue) :
    x ∈ queue.eraseIdx i := by
  obtain ⟨j, hj⟩ := List.mem_iff_getElem?.mp hx
  refine List.mem_eraseIdx_iff_getElem?.mpr ⟨j, fun hji => hne ?_, hj⟩
  rw [hji, hi, Option.some.injEq] at hj
  exact hj.symm

section Harmless

variable {p p' : Process} {closed : List ℕ}

theorem Winding.harmless (hw : Winding ⟨p, closed⟩) (h : Harmless closed p p') : Winding ⟨p', closed⟩ := by
  refine ⟨hw.sound.harmless h, h.same.2.1.trans hw.requested, fun x hx => ?_⟩
  rcases h.added x hx with hold | ⟨hnew, -⟩
  · exact hw.none x hold
  · exact hnew

theorem Harmless.refl (p : Process) : Harmless closed p p :=
  ⟨⟨rfl, rfl, rfl, rfl, rfl, rfl⟩, fun _ h _ => h, fun _ h => .inl h, .inl, .inl, .inl, fun _ h => .inl h, id⟩

theorem Harmless.trans {p'' : Process} (h : Harmless closed p p') (h' : Harmless closed p' p'') :
    Harmless closed p p'' := by
  obtain ⟨hopen, hstop, hwaiter, hcount, hforwarding, hstopping⟩ := h.same
  obtain ⟨hopen', hstop', hwaiter', hcount', hforwarding', hstopping'⟩ := h'.same
  refine ⟨⟨hopen'.trans hopen, hstop'.trans hstop, hwaiter'.trans hwaiter, hcount'.trans hcount,
    hforwarding'.trans hforwarding, hstopping'.trans hstopping⟩,
    fun x hx hxs => h'.kept x (h.kept x hx hxs) hxs, fun x hx => ?_, fun hr => ?_, fun hr => ?_,
    fun hl => ?_, fun x hx => ?_, h'.nodup ∘ h.nodup⟩
  · rcases h'.added x hx with hx | ⟨hnew, hresolves, hrange⟩
    · exact h.added x hx
    · exact .inr ⟨hnew, fun hr => hforwarding ▸ hresolves hr, fun y hy => hcount ▸ hrange y hy⟩
  · rcases h'.receiving hr with hr | ho
    · exact h.receiving hr
    · exact .inr (hopen ▸ ho)
  · rcases h'.resolveTimer hr with hr | ⟨hnot, hf⟩
    · exact h.resolveTimer hr
    · exact .inr ⟨hstopping ▸ hnot, hforwarding ▸ hf⟩
  · rcases h'.lookup hl with hl | hf
    · exact h.lookup hl
    · exact .inr (hforwarding ▸ hf)
  · rcases h'.timers x hx with hx | ⟨hlt, hnot⟩
    · exact h.timers x hx
    · exact .inr ⟨hcount ▸ hlt, hnot⟩

/-- A handler that is no handler of the stop is taken out of the queue. -/
theorem erased_harmless {i : ℕ} {h : Handler} (hi : p.queue[i]? = some h) (hh : h.ofStop = false) :
    Harmless closed p { p with queue := p.queue.eraseIdx i } := by
  refine ⟨⟨rfl, rfl, rfl, rfl, rfl, rfl⟩, fun x hx hxs => mem_eraseIdx_other hi (fun heq => ?_) hx,
    fun x hx => .inl (List.mem_of_mem_eraseIdx hx), .inl, .inl, .inl, fun _ hx => .inl hx, id⟩
  rw [heq, hh] at hxs
  cases hxs

/-- A handler joins the queue. -/
theorem posted_harmless (h : Handler) (hh : h.ofStop = false) (hr : h.resolves = true → p.forwarding = true)
    (hs : ∀ sink ∈ h.sink, sink < p.sinkCount) : Harmless closed p { p with queue := p.queue ++ [h] } := by
  refine ⟨⟨rfl, rfl, rfl, rfl, rfl, rfl⟩, fun x hx _ => List.mem_append_left _ hx, fun x hx => ?_, .inl,
    .inl, .inl, fun _ hx => .inl hx, id⟩
  rcases List.mem_append.mp hx with hx | hx
  · exact .inl hx
  · rw [List.mem_singleton.mp hx]
    exact .inr ⟨hh, hr, hs⟩

theorem Adds.harmless (hadds : Adds p.sinkCount p p') : Harmless closed p p' := by
  obtain ⟨new, hnew, hall⟩ := hadds.queue
  have hs := hadds.settled
  unfold Process.settled at hs
  simp only [Prod.mk.injEq] at hs
  obtain ⟨hopen, hstop, hwaiter, hcount, hforwarding, hstopping, htimers, hlookup, hresolve⟩ := hs
  refine ⟨⟨hopen, hstop, hwaiter, hcount, hforwarding, hstopping⟩, fun x hx _ => ?_, fun x hx => ?_,
    hadds.receiving, fun hr => .inl (hresolve ▸ hr), fun hl => .inl (hlookup ▸ hl),
    fun sink hsink => .inl (htimers ▸ hsink), fun hnodup => htimers ▸ hnodup⟩
  · rw [hnew]
    exact List.mem_append_left _ hx
  · rw [hnew] at hx
    rcases List.mem_append.mp hx with hold | hx
    · exact .inl hold
    · obtain ⟨hstop, hresolves, hrange⟩ := hall x hx
      exact .inr ⟨hstop, fun hr => absurd hr (by rw [hresolves]; exact Bool.false_ne_true), hrange⟩

end Harmless

/-- What the handlers of the forwarder's lookups do. -/
structure Looks (p p' : Process) : Prop where
  same : (p'.socketOpen, p'.stopRequested, p'.waiter, p'.sinkCount, p'.forwarding, p'.forwarderStopping,
    p'.sinkTimers) = (p.socketOpen, p.stopRequested, p.waiter, p.sinkCount, p.forwarding,
      p.forwarderStopping, p.sinkTimers)
  queue : p'.queue = p.queue
  receiving : p'.receiving = p.receiving
  resolveTimer : p'.resolveTimer = true → p.resolveTimer = true ∨ p.forwarderStopping = false

theorem Looks.refl (p : Process) : Looks p p := ⟨rfl, rfl, rfl, .inl⟩

theorem Looks.trans (p p' p'' : Process) (h : Looks p p') (h' : Looks p' p'') : Looks p p'' := by
  have hsame := h.same
  simp only [Prod.mk.injEq] at hsame
  refine ⟨h'.same.trans h.same, h'.queue.trans h.queue, h'.receiving.trans h.receiving, fun hr => ?_⟩
  rcases h'.resolveTimer hr with hr | hnot
  · exact h.resolveTimer hr
  · exact .inr (hsame.2.2.2.2.2.1 ▸ hnot)

section Handlers

variable (turn : Turn)

theorem looks_attemptAt (s : Statement) : Always Looks (attemptAt turn s) := by
  unfold attemptAt
  split
  · exact always_raise _ Looks.refl ()
  · exact always_pure _ Looks.refl ()

theorem looks_scheduleResolveRetry : Always Looks (scheduleResolveRetry turn) := by
  intro p
  unfold scheduleResolveRetry
  rw [wp_bind, wp_get]
  split
  case isTrue => exact Looks.refl p
  case isFalse hnot =>
    have harm : Always (fun p p' : Process => p.forwarderStopping = false → Looks p p')
        (Effect.modify fun p => { p with resolveTimer := true } : Task Unit) :=
        fun p h => ⟨rfl, rfl, rfl, fun _ => .inr h⟩
    rw [wp_bind]
    refine wp_mono _ _ _ _ _ p (looks_attemptAt turn .armResolveTimer p) (fun _ p' hp' => ?_) (fun _ _ h => h)
    have hsame := hp'.same
    simp only [Prod.mk.injEq] at hsame
    exact hp'.trans _ _ _ (harm p' (hsame.2.2.2.2.2.1.trans (by simpa using hnot)))

theorem looks_onResolved (found : Bool) : Always Looks (onResolved turn found) := by
  refine always_bind _ Looks.trans _ _ (always_get _ Looks.refl) fun p => ?_
  split
  · exact always_pure _ Looks.refl ()
  · refine always_bind _ Looks.trans _ _ (looks_attemptAt turn _) fun _ => ?_
    split
    · exact always_pure _ Looks.refl ()
    · exact looks_scheduleResolveRetry turn

theorem looks_retryResolve (cancelled : Bool) : Always Looks (handle turn (.retryResolve cancelled)) := by
  refine always_bind _ Looks.trans _ _ (always_get _ Looks.refl) fun p => ?_
  split
  · exact always_pure _ Looks.refl ()
  · exact always_bind _ Looks.trans _ _ (looks_attemptAt turn _) fun _ => fun _ => ⟨rfl, rfl, rfl, .inl⟩

variable {p p' : Process} {closed : List ℕ} {i : ℕ} {h : Handler}

theorem Looks.harmless (hf : p.forwarding = true) (hlooks : Looks p p') : Harmless closed p p' := by
  have hsame := hlooks.same
  simp only [Prod.mk.injEq] at hsame
  obtain ⟨hopen, hstop, hwaiter, hcount, hforwarding, hstopping, htimers⟩ := hsame
  refine ⟨⟨hopen, hstop, hwaiter, hcount, hforwarding, hstopping⟩, fun x hx _ => ?_, fun x hx => .inl ?_,
    fun hr => .inl (hlooks.receiving ▸ hr), fun hr => (hlooks.resolveTimer hr).imp id (⟨·, hf⟩),
    fun _ => .inr hf, fun sink hsink => .inl (htimers ▸ hsink), fun hnodup => htimers ▸ hnodup⟩
  · rw [hlooks.queue]
    exact hx
  · rw [hlooks.queue] at hx
    exact hx

/-- A sink's handler arms the timer of a sink that is not closed. -/
theorem sinkHandler_harmless (sink : ℕ) (hs : Sound ⟨p, closed⟩) (hi : p.queue[i]? = some h)
    (hh : h.ofStop = false) (hsink : h.sink = some sink) (hobeys : Obeys ⟨p, closed⟩ i turn) :
    wp (sinkHandler turn sink) (fun _ p' => Harmless closed p p') (fun _ p' => Harmless closed p p')
      { p with queue := p.queue.eraseIdx i } := by
  have hkept : Harmless closed p { p with queue := p.queue.eraseIdx i } := erased_harmless hi hh
  unfold sinkHandler
  rw [wp_modify]
  split
  case isFalse => exact hkept
  case isTrue harms =>
    refine { hkept with
      timers := fun x hx => ?_
      nodup := fun hnodup => List.nodup_cons.mpr ⟨fun hmem => ?_, hnodup.erase sink⟩ }
    case refine_2 => exact (List.Nodup.mem_erase_iff hnodup).mp hmem |>.1 rfl
    rcases List.mem_cons.mp hx with rfl | hx
    · refine .inr ⟨hs.range.1 h (List.mem_of_getElem? hi) x hsink, fun hclosed => ?_⟩
      rw [hobeys.quiet h hi x hsink hclosed] at harms
      cases harms
    · exact .inl (List.mem_of_mem_erase hx)

/-- The handlers that do not belong to the stop. -/
theorem handle_harmless (hs : Sound ⟨p, closed⟩) (hi : p.queue[i]? = some h) (hh : h.ofStop = false)
    (hobeys : Obeys ⟨p, closed⟩ i turn) :
    wp (handle turn h) (fun _ p' => Harmless closed p p') (fun _ p' => Harmless closed p p')
      { p with queue := p.queue.eraseIdx i } := by
  have hadds : ∀ x : Task Unit, Always (Adds p.sinkCount) x →
      wp x (fun _ p' => Harmless closed p p') (fun _ p' => Harmless closed p p')
      { p with queue := p.queue.eraseIdx i } := fun x hx =>
    wp_of_always _ x hx _ _ fun p' h' => (erased_harmless hi hh).trans h'.harmless
  have hlooks : ∀ x : Task Unit, h.resolves = true → Always Looks x →
      wp x (fun _ p' => Harmless closed p p') (fun _ p' => Harmless closed p p')
      { p with queue := p.queue.eraseIdx i } := by
    intro x hr hx
    have hf : p.forwarding = true := by
      by_contra hnot
      have hnone := (hs.noForwarder (Bool.eq_false_iff.mpr hnot)).2.2 h (List.mem_of_getElem? hi)
      rw [hr] at hnone
      cases hnone
    exact wp_of_always _ x hx _ _ fun p' h' => (erased_harmless hi hh).trans (h'.harmless hf)
  cases h with
  | received c => exact hadds _ (adds_onReceive _ turn c)
  | rearm cancelled => exact hadds _ (adds_ite _ _ _ _ (adds_pure _) (adds_receive _ turn))
  | parse => exact hadds _ (adds_parseAndDispatch _ turn hobeys.routed.2)
  | forward => exact hadds _ (adds_attemptAt _ turn _)
  | write sink => exact sinkHandler_harmless turn sink hs hi hh rfl hobeys
  | reopen sink cancelled =>
    unfold handle
    dsimp only
    split
    · exact hadds _ (adds_pure _)
    · exact sinkHandler_harmless turn sink hs hi hh rfl hobeys
  | resolved found => exact hlooks _ rfl (looks_onResolved turn found)
  | retryResolve cancelled => exact hlooks _ rfl (looks_retryResolve turn cancelled)
  | closeSink sink => cases hh
  | stopForwarder => cases hh
  | stopServer => cases hh
  | signal => cases hh

end Handlers

/-! ## The handlers of the stop -/

section Stop

variable (turn : Turn) {p : Process} {closed : List ℕ} {i : ℕ}

theorem requested_of_mem (hs : Sound ⟨p, closed⟩) (h : Handler) (hi : p.queue[i]? = some h)
    (hh : h.ofStop = true) :
    p.stopRequested = true := by
  by_contra hnot
  have hidle := hs.idle (Bool.eq_false_iff.mpr hnot) h (List.mem_of_getElem? hi)
  rw [hh] at hidle
  cases hidle

/-- `LogFile::close`. -/
theorem closeSink_sound (sink : ℕ) (hs : Sound ⟨p, closed⟩) (hi : p.queue[i]? = some (.closeSink sink)) :
    wp (handle turn (.closeSink sink)) (fun _ p' => Sound ⟨p', sink :: closed⟩)
    (fun _ p' => Sound ⟨p', sink :: closed⟩)
      { p with queue := p.queue.eraseIdx i } := by
  have hreq := requested_of_mem hs _ hi rfl
  have hother : ∀ x, x ≠ .closeSink sink → x ∈ p.queue → x ∈ p.queue.eraseIdx i :=
    fun x hne hx => mem_eraseIdx_other hi hne hx
  have hbase : Sound ⟨{ p with queue := p.queue.eraseIdx i, sinkTimers := p.sinkTimers.erase sink },
      sink :: closed⟩ := by
    refine ⟨fun hr => absurd hreq (by rw [hr]; exact Bool.false_ne_true), hs.waiter, fun _ => ?_,
      fun _ => ?_, fun _ hf => ?_, hs.receiving, hs.resolveTimer, fun hf => ?_,
      ⟨fun x hx => hs.range.1 x (List.mem_of_mem_eraseIdx hx), fun x hx => ?_⟩, fun x hx hmem => ?_,
      hs.nodup.erase sink⟩
    · exact (hs.server hreq).imp (hother _ (fun h => by cases h)) (Or.imp_left (hother _ (fun h => by cases h)))
    · refine (hs.sinks hreq).imp (hother _ (fun h => by cases h)) fun hall x hx => ?_
      by_cases hxs : x = sink
      · exact .inr (List.mem_cons.mpr (.inl hxs))
      · refine (hall x hx).imp (hother _ fun h => hxs (by cases h; rfl)) (List.mem_cons_of_mem _)
    · exact (hs.forwarder hreq hf).imp (hother _ (fun h => by cases h))
        (Or.imp_left (hother _ (fun h => by cases h)))
    · obtain ⟨hl, ht, hq⟩ := hs.noForwarder hf
      exact ⟨hl, ht, fun x hx => hq x (List.mem_of_mem_eraseIdx hx)⟩
    · exact hs.range.2 x (List.mem_of_mem_erase hx)
    · obtain ⟨hne, hold⟩ := (List.Nodup.mem_erase_iff hs.nodup).mp hmem
      rcases List.mem_cons.mp hx with heq | hx
      · exact hne heq
      · exact hs.timers x hx hold
  change wp (closeSink sink) _ _ _
  unfold closeSink
  rw [wp_modify]
  split
  case isTrue hmem =>
    refine hbase.harmless (posted_harmless _ rfl (fun hr => by cases hr) fun x hx => ?_)
    cases hx
    exact hs.range.2 sink hmem
  case isFalse hnot =>
    rwa [List.erase_of_not_mem hnot] at hbase

/-- `Forwarder::stop`. -/
theorem stopForwarder_sound (hs : Sound ⟨p, closed⟩) (hi : p.queue[i]? = some .stopForwarder) :
    wp (handle turn .stopForwarder) (fun _ p' => Sound ⟨p', closed⟩) (fun _ p' => Sound ⟨p', closed⟩)
      { p with queue := p.queue.eraseIdx i } := by
  have hreq := requested_of_mem hs _ hi rfl
  have hother : ∀ x, x ≠ .stopForwarder → x ∈ p.queue → x ∈ p.queue.eraseIdx i :=
    fun x hne hx => mem_eraseIdx_other hi hne hx
  have hbase : Sound ⟨{ p with
      queue := p.queue.eraseIdx i, forwarderStopping := true, resolveTimer := false }, closed⟩ := by
    refine ⟨fun hr => absurd hreq (by rw [hr]; exact Bool.false_ne_true), hs.waiter, fun _ => ?_,
      fun _ => ?_, fun _ _ => .inr (.inr rfl), hs.receiving, fun _ => rfl, fun hf => ?_,
      ⟨fun x hx => hs.range.1 x (List.mem_of_mem_eraseIdx hx), hs.range.2⟩, hs.timers, hs.nodup⟩
    · exact (hs.server hreq).imp (hother _ (fun h => by cases h)) (Or.imp_left (hother _ (fun h => by cases h)))
    · exact (hs.sinks hreq).imp (hother _ (fun h => by cases h)) fun hall x hx =>
        (hall x hx).imp_left (hother _ (fun h => by cases h))
    · obtain ⟨hl, -, hq⟩ := hs.noForwarder hf
      exact ⟨hl, rfl, fun x hx => hq x (List.mem_of_mem_eraseIdx hx)⟩
  change wp stopForwarder _ _ _
  unfold stopForwarder
  rw [wp_modify]
  cases ht : p.resolveTimer with
  | false => exact hbase
  | true =>
    have hf : p.forwarding = true := by
      by_contra hnot
      exact Bool.false_ne_true ((hs.noForwarder (Bool.eq_false_iff.mpr hnot)).2.1.symm.trans ht)
    exact hbase.harmless (posted_harmless _ rfl (fun _ => hf) fun x hx => by cases hx)

/-- The socket is closed, and what waited on it is cancelled. -/
def closedSocket (p : Process) : Process :=
  { p with
    socketOpen := false
    receiving := false
    rearming := false
    queue := p.queue ++ (if p.receiving then [.received (.failed .operationAborted)] else []) ++
      (if p.rearming then [.rearm true] else []) }

theorem stopServer_wp (Q : Unit → Process → Prop) (E : Unit → Process → Prop) (q : Process)
    (h : wp (reportDrops turn true) Q E (closedSocket q)) : wp (stopServer turn) Q E q := by
  unfold stopServer
  simp only [wp_bind, wp_get, wp_modify]
  unfold closedSocket at h
  cases hr : q.receiving with
  | true =>
    cases ha : q.rearming with
    | true =>
      rw [hr, ha] at h
      simpa [post, List.append_assoc] using h
    | false =>
      rw [hr, ha] at h
      simpa [post, ha] using h
  | false =>
    cases ha : q.rearming with
    | true =>
      rw [hr, ha] at h
      simpa [post, hr, List.append_assoc] using h
    | false =>
      rw [hr, ha] at h
      simpa [hr, ha] using h

/-- The handler that `UdpServer::stop` posts. -/
theorem stopServer_sound (hs : Sound ⟨p, closed⟩) (hi : p.queue[i]? = some .stopServer) :
    wp (handle turn .stopServer) (fun _ p' => Sound ⟨p', closed⟩) (fun _ p' => Sound ⟨p', closed⟩)
      { p with queue := p.queue.eraseIdx i } := by
  have hreq := requested_of_mem hs _ hi rfl
  have hother : ∀ x, x ≠ .stopServer → x ∈ p.queue → x ∈ p.queue.eraseIdx i :=
    fun x hne hx => mem_eraseIdx_other hi hne hx
  have hbase : Sound ⟨{ p with
      queue := p.queue.eraseIdx i, socketOpen := false, receiving := false, rearming := false }, closed⟩ := by
    refine ⟨fun hr => absurd hreq (by rw [hr]; exact Bool.false_ne_true), hs.waiter,
      fun _ => .inr (.inr rfl), fun _ => ?_, fun _ hf => ?_, fun _ => rfl, hs.resolveTimer, fun hf => ?_,
      ⟨fun x hx => hs.range.1 x (List.mem_of_mem_eraseIdx hx), hs.range.2⟩, hs.timers, hs.nodup⟩
    · exact (hs.sinks hreq).imp (hother _ (fun h => by cases h)) fun hall x hx =>
        (hall x hx).imp_left (hother _ (fun h => by cases h))
    · exact (hs.forwarder hreq hf).imp (hother _ (fun h => by cases h))
        (Or.imp_left (hother _ (fun h => by cases h)))
    · obtain ⟨hl, ht, hq⟩ := hs.noForwarder hf
      exact ⟨hl, ht, fun x hx => hq x (List.mem_of_mem_eraseIdx hx)⟩
  have hclosed : Sound ⟨closedSocket { p with queue := p.queue.eraseIdx i }, closed⟩ := by
    refine hbase.harmless (Adds.harmless ⟨⟨_, List.append_assoc _ _ _, fun x hx => ?_⟩, .inl, rfl⟩)
    rcases List.mem_append.mp hx with hx | hx
    · split_ifs at hx
      · rw [List.mem_singleton.mp hx]
        exact ordinary_received _ _
      · exact absurd hx List.not_mem_nil
    · split_ifs at hx
      · rw [List.mem_singleton.mp hx]
        exact ⟨rfl, rfl, fun _ h => by cases h⟩
      · exact absurd hx List.not_mem_nil
  refine stopServer_wp turn _ _ _ (wp_of_always _ _ (adds_reportDrops p.sinkCount turn true) _ _
    fun p' h' => ?_)
  exact hclosed.harmless (Adds.harmless h')

theorem postEach_eq (s : ℕ → Statement) (h : ℕ → Handler) (sinks : List ℕ)
    (hs : ∀ sink, turn.throws (s sink) = false) (q : Process) :
    postEach turn s h sinks q = (.ok (), { q with queue := q.queue ++ sinks.map h }) := by
  induction sinks generalizing q with
  | nil =>
    rw [List.map_nil, List.append_nil]
    rfl
  | cons sink sinks ih =>
    have hpost : (attemptAt turn (s sink) >>= fun _ => post (h sink)) q =
        (.ok (), { q with queue := q.queue ++ [h sink] }) := by
      unfold attemptAt
      rw [hs sink]
      rfl
    rw [postEach, ← Effect.bind_bind, Effect.bind_of_ok _ _ _ _ _ hpost, ih, List.append_assoc,
      List.singleton_append, List.map_cons]

/-- The handlers that a stop posts. -/
def stopHandlers (p : Process) : List Handler :=
  .stopServer :: (List.range p.sinkCount).map .closeSink ++ (if p.forwarding then [.stopForwarder] else [])

theorem onStop_eq (hobeys : turn.throws .postStop = false ∧ turn.throws .postStopForwarder = false ∧
    ∀ sink, turn.throws (.postClose sink) = false) (q : Process) :
    onStop turn q = (.ok (), { q with queue := q.queue ++ stopHandlers q }) := by
  obtain ⟨hstop, hforwarder, hclose⟩ := hobeys
  have hfirst : (attemptAt turn .postStop >>= fun _ => post .stopServer) q =
      (.ok (), { q with queue := q.queue ++ [.stopServer] }) := by
    unfold attemptAt
    rw [hstop]
    rfl
  have hlast : ∀ (forwarding : Bool) (r : Process),
      (if forwarding then attemptAt turn .postStopForwarder >>= fun _ => post .stopForwarder else pure ()) r =
        (.ok (), { r with queue := r.queue ++ (if forwarding then [.stopForwarder] else []) }) := by
    intro forwarding r
    cases forwarding with
    | true =>
      unfold attemptAt
      rw [hforwarder]
      rfl
    | false =>
      rw [if_neg Bool.false_ne_true, if_neg Bool.false_ne_true, List.append_nil]
      rfl
  unfold onStop stopHandlers
  rw [← Effect.bind_bind, Effect.bind_of_ok _ _ _ _ _ hfirst, Effect.bind_of_ok Effect.get _ _ _ _ rfl,
    Effect.bind_of_ok _ _ _ _ _ (postEach_eq turn _ _ _ hclose _), hlast, List.append_assoc, List.append_assoc]
  rfl

/-- The handler of the shutdown waiter. -/
theorem signal_sound (hs : Sound ⟨p, closed⟩) (hi : p.queue[i]? = some .signal)
    (hobeys : Obeys ⟨p, closed⟩ i turn) :
    wp (handle turn .signal) (fun _ p' => Sound ⟨p', closed⟩) (fun _ p' => Sound ⟨p', closed⟩)
      { p with queue := p.queue.eraseIdx i } := by
  have hreq := requested_of_mem hs _ hi rfl
  have hnew : ∀ x ∈ stopHandlers p, x.resolves = false ∧ x.sink = none := by
    intro x hx
    rcases List.mem_append.mp hx with hx | hx
    · rcases List.mem_cons.mp hx with rfl | hx
      · exact ⟨rfl, rfl⟩
      · obtain ⟨sink, -, rfl⟩ := List.mem_map.mp hx
        exact ⟨rfl, rfl⟩
    · split_ifs at hx
      · rw [List.mem_singleton.mp hx]
        exact ⟨rfl, rfl⟩
      · exact absurd hx List.not_mem_nil
  change wp (onStop turn) _ _ _
  unfold wp
  rw [onStop_eq turn hobeys.posted]
  refine ⟨fun hr => absurd hreq (by rw [hr]; exact Bool.false_ne_true), hs.waiter, fun _ => .inr (.inl ?_),
    fun _ => .inr fun sink hsink => ?_, fun _ hf => .inr (.inl ?_), hs.receiving, hs.resolveTimer,
    fun hf => ?_, ⟨fun x hx sink hsink => ?_, hs.range.2⟩, hs.timers, hs.nodup⟩
  · exact List.mem_append_right _ List.mem_cons_self
  · exact .inl (List.mem_append_right _ (List.mem_append_left _
      (List.mem_cons_of_mem _ (List.mem_map_of_mem (List.mem_range.mpr hsink)))))
  · refine List.mem_append_right _ (List.mem_append_right _ ?_)
    change p.forwarding = true at hf
    rw [hf, if_pos rfl]
    exact List.mem_singleton_self _
  · obtain ⟨hl, ht, hq⟩ := hs.noForwarder hf
    refine ⟨hl, ht, fun x hx => ?_⟩
    rcases List.mem_append.mp hx with hx | hx
    · exact hq x (List.mem_of_mem_eraseIdx hx)
    · exact (hnew x hx).1
  · rcases List.mem_append.mp hx with hx | hx
    · exact hs.range.1 x (List.mem_of_mem_eraseIdx hx) sink hsink
    · rw [(hnew x hx).2] at hsink
      cases hsink

end Stop

/-! ## Every occurrence -/

theorem runHandler_of (turn : Turn) (h : Handler) (q : Process) (P : Process → Prop)
    (hP : wp (handle turn h) (fun _ p' => P p') (fun _ p' => P p') q)
    (hreported : turn.throws .unhandledLog = false)
    (hlog : ∀ p' log, P p' → P { p' with caught := true, osLog := log }) : P (runHandler turn h q) := by
  unfold wp at hP
  unfold runHandler
  cases hrun : handle turn h q with
  | mk r p' =>
    rw [hrun] at hP
    cases r with
    | ok _ => exact hP
    | error _ =>
      dsimp only
      rw [hreported, if_neg Bool.false_ne_true]
      exact hlog p' _ hP

section Next

variable {p : Process} {closed : List ℕ}

/-- A change that the stop does not see. -/
theorem unseen_harmless (p p' : Process) (hq : p'.queue = p.queue) (hr : p'.receiving = p.receiving)
    (hs : p'.settled = p.settled) :
    Harmless closed p p' :=
  Adds.harmless ⟨⟨[], by rw [hq, List.append_nil], fun _ h => absurd h List.not_mem_nil⟩,
    fun h => .inl (hr ▸ h), hs⟩

/-- The occurrences that do not belong to the stop. -/
theorem occur_harmless (hs : Sound ⟨p, closed⟩) (o : Occurrence) (hobeys : Allowed ⟨p, closed⟩ o)
    (hstop : ∀ i turn h, o = .runs i turn → p.queue[i]? = some h → h.ofStop = false)
    (hsignal : o = .signalled → p.stopRequested = true) : Harmless closed p (occur p o) := by
  cases o with
  | received c =>
    unfold occur
    dsimp only
    split
    · have hdone : Harmless closed p { p with receiving := false } :=
        ⟨⟨rfl, rfl, rfl, rfl, rfl, rfl⟩, fun _ h _ => h, fun _ h => .inl h, fun h => (by cases h), .inl,
          .inl, fun _ h => .inl h, id⟩
      exact hdone.trans (posted_harmless _ rfl (fun h => by cases h) fun _ h => (by cases h))
    · exact Harmless.refl p
  | rearmExpired =>
    unfold occur
    dsimp only
    split
    · exact (unseen_harmless p { p with rearming := false } rfl rfl rfl).trans
        (posted_harmless _ rfl (fun h => by cases h) fun _ h => (by cases h))
    · exact Harmless.refl p
  | sinkTimerExpired sink =>
    unfold occur
    dsimp only
    split
    case isTrue hmem =>
      have hdone : Harmless closed p { p with sinkTimers := p.sinkTimers.erase sink } :=
        ⟨⟨rfl, rfl, rfl, rfl, rfl, rfl⟩, fun _ h _ => h, fun _ h => .inl h, .inl, .inl, .inl,
          fun _ h => .inl (List.mem_of_mem_erase h), fun h => h.erase sink⟩
      refine hdone.trans (posted_harmless _ rfl (fun h => by cases h) fun x hx => ?_)
      cases hx
      exact hs.range.2 sink hmem
    case isFalse => exact Harmless.refl p
  | lookedUp found =>
    unfold occur
    dsimp only
    split
    case isTrue hl =>
      have hf : p.forwarding = true := by
        by_contra hnot
        exact Bool.false_ne_true ((hs.noForwarder (Bool.eq_false_iff.mpr hnot)).1.symm.trans hl)
      have hdone : Harmless closed p { p with lookup := false } :=
        ⟨⟨rfl, rfl, rfl, rfl, rfl, rfl⟩, fun _ h _ => h, fun _ h => .inl h, .inl, .inl,
          fun h => (by cases h), fun _ h => .inl h, id⟩
      exact hdone.trans (posted_harmless _ rfl (fun _ => hf) fun _ h => (by cases h))
    case isFalse => exact Harmless.refl p
  | resolveTimerExpired =>
    unfold occur
    dsimp only
    split
    case isTrue ht =>
      have hf : p.forwarding = true := by
        by_contra hnot
        exact Bool.false_ne_true ((hs.noForwarder (Bool.eq_false_iff.mpr hnot)).2.1.symm.trans ht)
      have hdone : Harmless closed p { p with resolveTimer := false } :=
        ⟨⟨rfl, rfl, rfl, rfl, rfl, rfl⟩, fun _ h _ => h, fun _ h => .inl h, .inl, fun h => (by cases h),
          .inl, fun _ h => .inl h, id⟩
      exact hdone.trans (posted_harmless _ rfl (fun _ => hf) fun _ h => (by cases h))
    case isFalse => exact Harmless.refl p
  | signalled =>
    have hreq := hsignal rfl
    have hwaiter : p.waiter = false := hs.waiter hreq
    unfold occur
    rw [hwaiter, hreq, if_neg Bool.false_ne_true, Bool.not_true, Bool.and_false, if_neg Bool.false_ne_true]
    exact Harmless.refl p
  | released bytes => exact unseen_harmless p _ rfl rfl rfl
  | runs i turn =>
    unfold occur
    dsimp only
    cases hi : p.queue[i]? with
    | none => exact Harmless.refl p
    | some h =>
      refine runHandler_of turn h _ _ (handle_harmless turn hs hi (hstop i turn h rfl hi) hobeys)
        hobeys.reported fun p' log hp' => ?_
      exact hp'.trans (unseen_harmless p' _ rfl rfl rfl)

theorem next_harmless (hs : Sound ⟨p, closed⟩) (o : Occurrence) (hobeys : Allowed ⟨p, closed⟩ o)
    (hstop : ∀ i turn h, o = .runs i turn → p.queue[i]? = some h → h.ofStop = false)
    (hsignal : o = .signalled → p.stopRequested = true) : Harmless closed p (next p o) := by
  have hoccur := occur_harmless hs o hobeys hstop hsignal
  unfold next
  split
  · exact Harmless.refl p
  · dsimp only
    split
    · exact hoccur
    · exact hoccur.trans (unseen_harmless _ _ rfl rfl rfl)

/-- A stop is requested. -/
theorem signalled_sound (hs : Sound ⟨p, closed⟩) :
    Sound ⟨{ p with waiter := false, stopRequested := true, queue := p.queue ++ [.signal] }, closed⟩ := by
  have hmem : Handler.signal ∈ p.queue ++ [.signal] := List.mem_append_right _ (List.mem_singleton_self _)
  refine ⟨fun h => (by cases h), fun _ => rfl, fun _ => .inl hmem, fun _ => .inl hmem, fun _ _ => .inl hmem,
    hs.receiving, hs.resolveTimer, fun hf => ?_, ⟨fun x hx sink hsink => ?_, hs.range.2⟩, hs.timers, hs.nodup⟩
  · obtain ⟨hl, ht, hq⟩ := hs.noForwarder hf
    refine ⟨hl, ht, fun x hx => ?_⟩
    rcases List.mem_append.mp hx with hx | hx
    · exact hq x hx
    · rw [List.mem_singleton.mp hx]
      rfl
  · rcases List.mem_append.mp hx with hx | hx
    · exact hs.range.1 x hx sink hsink
    · rw [List.mem_singleton.mp hx] at hsink
      cases hsink

/-- One occurrence, whichever. -/
theorem next_sound (s : Stage) (o : Occurrence) (hs : Sound s) (hobeys : Allowed s o) : Sound (s.next o) := by
  obtain ⟨p, closed⟩ := s
  unfold Stage.next
  cases hret : p.returned with
  | true =>
    have hsame : next p o = p := if_pos hret
    dsimp only
    rw [hsame, if_pos rfl]
    exact hs
  | false =>
    -- what the loop does after an occurrence is not seen by the stop
    have hafter : ∀ c, Sound ⟨occur p o, c⟩ → Sound ⟨next p o, c⟩ := by
      intro c hoccur
      unfold next
      rw [if_neg (by rw [hret]; exact Bool.false_ne_true)]
      dsimp only
      split
      · exact hoccur
      · exact hoccur.harmless (unseen_harmless _ _ rfl rfl rfl)
    have hlogged : ∀ c p' log, Sound ⟨p', c⟩ → Sound ⟨{ p' with caught := true, osLog := log }, c⟩ :=
      fun c p' log h =>
      h.harmless (unseen_harmless _ _ rfl rfl rfl)
    dsimp only
    rw [if_neg Bool.false_ne_true]
    by_cases hstop : ∃ i turn h, o = .runs i turn ∧ p.queue[i]? = some h ∧ h.ofStop = true
    · obtain ⟨i, turn, h, rfl, hi, hh⟩ := hstop
      have hrun : ∀ c, wp (handle turn h) (fun _ p' => Sound ⟨p', c⟩) (fun _ p' => Sound ⟨p', c⟩)
          { p with queue := p.queue.eraseIdx i } →
          Sound ⟨next p (.runs i turn), c⟩ := by
        intro c hwp
        refine hafter c ?_
        unfold occur
        dsimp only
        rw [hi]
        exact runHandler_of turn h _ _ hwp hobeys.reported (hlogged c)
      unfold closing
      dsimp only
      rw [hi]
      cases h with
      | closeSink sink => exact hrun _ (closeSink_sound turn sink hs hi)
      | stopForwarder => exact hrun _ (stopForwarder_sound turn hs hi)
      | stopServer => exact hrun _ (stopServer_sound turn hs hi)
      | signal => exact hrun _ (signal_sound turn hs hi hobeys)
      | received | rearm | parse | write | reopen | forward | resolved | retryResolve => cases hh
    · have hclosing : closing p o = none := by
        cases o with
        | runs i turn =>
          unfold closing
          dsimp only
          split
          case h_1 sink hi => exact absurd ⟨i, turn, _, rfl, hi, rfl⟩ hstop
          case h_2 => rfl
        | _ => rfl
      rw [hclosing]
      by_cases hsignal : o = .signalled ∧ p.stopRequested = false
      · obtain ⟨rfl, hreq⟩ := hsignal
        have hrequested := signalled_sound hs
        refine hafter closed ?_
        unfold occur
        dsimp only
        split
        case isTrue => exact hrequested
        case isFalse hwaiter =>
          split
          · exact hrequested.harmless (unseen_harmless _ _ rfl rfl (by simp [Process.settled, hwaiter]))
          · exact hs
      · refine hs.harmless (next_harmless hs o hobeys (fun i turn h ho hi => ?_) fun ho => ?_)
        · exact Bool.eq_false_iff.mpr fun hh => hstop ⟨i, turn, h, ho, hi, hh⟩
        · exact Bool.not_eq_false _ ▸ fun hreq => hsignal ⟨ho, hreq⟩

end Next

/-! ## The cost of what is left -/

/-- At most `k` more can happen after the program than before it. -/
structure Spent (n k : ℕ) (p p' : Process) : Prop where
  socketOpen : p'.socketOpen = false
  sinkCount : p'.sinkCount = n
  cost : cost p' ≤ cost p + k

def Spends {α : Type} (n k : ℕ) (x : Task α) : Prop := ∀ p : Process, p.socketOpen = false → p.sinkCount = n →
  wp x (fun _ p' => Spent n k p p') (fun _ p' => Spent n k p p') p

section Spends

variable (n : ℕ) (turn : Turn)

theorem spends_bind {α β : Type} (j k : ℕ) (x : Task α) (f : α → Task β) (hx : Spends n j x)
    (hf : ∀ a, Spends n k (f a)) :
    Spends n (j + k) (x >>= f) := by
  intro p hopen hcount
  rw [wp_bind]
  refine wp_mono x _ _ _ _ p (hx p hopen hcount) (fun a p' h => ?_)
    (fun _ p' h => ⟨h.socketOpen, h.sinkCount, ?_⟩)
  · refine wp_mono (f a) _ _ _ _ p' (hf a p' h.socketOpen h.sinkCount) (fun _ p'' h' => ?_) (fun _ p'' h' => ?_)
    · exact ⟨h'.socketOpen, h'.sinkCount, by have := h.cost; have := h'.cost; omega⟩
    · exact ⟨h'.socketOpen, h'.sinkCount, by have := h.cost; have := h'.cost; omega⟩
  · have := h.cost
    omega

theorem Spends.mono {α : Type} {j : ℕ} {x : Task α} (hx : Spends n j x) (k : ℕ) (hle : j ≤ k) :
    Spends n k x := by
  intro p hopen hcount
  have hmore : ∀ p', Spent n j p p' → Spent n k p p' :=
    fun p' h => ⟨h.socketOpen, h.sinkCount, by have := h.cost; omega⟩
  exact wp_mono x _ _ _ _ p (hx p hopen hcount) (fun _ => hmore) (fun _ => hmore)

/-- A first part that adds nothing. -/
theorem spends_then {α β : Type} (k : ℕ) (x : Task α) (f : α → Task β) (hx : Spends n 0 x)
    (hf : ∀ a, Spends n k (f a)) :
    Spends n k (x >>= f) := (spends_bind n 0 k x f hx hf).mono n k (Nat.le_of_eq (Nat.zero_add k))

theorem spends_pure : Spends n 0 (pure () : Task Unit) := fun _ hopen hcount => ⟨hopen, hcount, Nat.le_refl _⟩

theorem spends_get {α : Type} (k : ℕ) (f : Process → Task α) (hf : ∀ p : Process, Spends n k (f p)) :
    Spends n k (Effect.get >>= f) := by
  intro p hopen hcount
  rw [wp_bind, wp_get]
  exact hf p p hopen hcount

theorem spends_ite {α : Type} (k : ℕ) (c : Prop) [Decidable c] (x y : Task α) (hx : Spends n k x)
    (hy : Spends n k y) :
    Spends n k (if c then x else y) := by
  split
  · exact hx
  · exact hy

theorem spends_attemptAt (s : Statement) : Spends n 0 (attemptAt turn s) :=
  spends_ite n 0 _ _ _ (fun _ hopen hcount => ⟨hopen, hcount, Nat.le_refl _⟩) (spends_pure n)

/-- A change of the rest of the state. -/
theorem spends_rest (f : Process → Process)
    (h : ∀ p, (f p).queue = p.queue ∧ (f p).rearming = p.rearming ∧ (f p).lookup = p.lookup ∧
      (f p).socketOpen = p.socketOpen ∧ (f p).sinkCount = p.sinkCount) : Spends n 0 (Effect.modify f :
        Task Unit) := by
  intro p hopen hcount
  obtain ⟨hq, hr, hl, ho, hc⟩ := h p
  refine ⟨ho.trans hopen, hc.trans hcount, ?_⟩
  unfold Server.cost
  rw [hq, hr, hl, hc, Nat.add_zero]

theorem cost_post (p : Process) (h : Handler) :
    cost { p with queue := p.queue ++ [h] } = cost p + weight p.sinkCount h := by
  unfold cost
  rw [List.map_append, List.sum_append]
  simp only [List.map_cons, List.map_nil, List.sum_cons, List.sum_nil]
  omega

theorem spends_post (h : Handler) : Spends n (weight n h) (post h) := by
  intro p hopen hcount
  refine ⟨hopen, hcount, ?_⟩
  rw [cost_post, hcount]

/-- One handler for each sink. -/
theorem spends_postEach (s : ℕ → Statement) (sinks : List ℕ) :
    Spends n sinks.length (postEach turn s .write sinks) := by
  induction sinks with
  | nil => exact spends_pure n
  | cons sink sinks ih =>
    have hrest := spends_bind n _ _ _ _ (spends_post n (.write sink)) fun _ => ih
    have hall := spends_then n _ _ _ (spends_attemptAt n turn (s sink)) fun _ => hrest
    have hone : weight n (.write sink) = 1 := rfl
    refine hall.mono n _ ?_
    rw [List.length_cons]
    omega

theorem spends_log (s : Statement) (line : Bytes) : Spends n 0 (log turn s line) :=
  spends_then n 0 _ _ (spends_attemptAt n turn s) fun _ => spends_rest n _ fun _ => ⟨rfl, rfl, rfl, rfl, rfl⟩

/-- A receive finds the socket closed. -/
theorem spends_receive : Spends n 1 (receive turn) := by
  refine spends_then n 1 _ _ (spends_attemptAt n turn _) fun _ p hopen hcount => ?_
  rw [wp_bind, wp_get, hopen, if_neg Bool.false_ne_true]
  exact spends_post n _ p hopen hcount

theorem spends_reportDrops (force : Bool) : Spends n 0 (reportDrops turn force) := by
  refine spends_get n 0 _ fun p => spends_ite n 0 _ _ _ (spends_pure n) ?_
  refine spends_then n 0 _ _ (spends_rest n _ fun _ => ⟨rfl, rfl, rfl, rfl, rfl⟩) fun _ => ?_
  refine spends_ite n 0 _ _ _ (spends_pure n) (spends_then n 0 _ _ (spends_attemptAt n turn _) fun _ => ?_)
  exact spends_then n 0 _ _ (spends_rest n _ fun _ => ⟨rfl, rfl, rfl, rfl, rfl⟩) fun _ => spends_log n turn _ _

/-- What a receive error leaves pending is the timer. -/
theorem spends_handleReceiveError (message : Bytes) : Spends n 3 (handleReceiveError turn message) := by
  have harm : Spends n 3 (attemptAt turn .armTimer >>= fun _ => Effect.modify fun p =>
      { p with rearming := true }) := by
    refine spends_then n 3 _ _ (spends_attemptAt n turn _) fun _ p hopen hcount => ⟨hopen, hcount, ?_⟩
    change (p.queue.map (weight p.sinkCount)).sum + 3 * 1 + 2 * p.lookup.toNat ≤ _
    unfold Server.cost
    omega
  refine spends_get n 3 _ fun p => spends_then n 3 _ _ (spends_rest n _ fun _ => ⟨rfl, rfl, rfl, rfl, rfl⟩)
    fun _ => ?_
  exact spends_ite n 3 _ _ _ (spends_then n 3 _ _ (spends_log n turn _ _) fun _ => harm) harm

theorem spends_datagram (bytes : ℕ) : Spends n (n + 3) (onReceive turn (.datagram bytes)) := by
  have hdeliver : ∀ p : Process, Spends n (n + 3) (do
      Effect.modify fun p => { p with admission := (p.admission.charge bytes).2 }
      if (p.admission.charge bytes).1 = false then
        reportDrops turn false
        receive turn
      else
        attemptAt turn .token
        attemptAt turn .copyData
        attemptAt turn .copyAddress
        receive turn
        attemptAt turn .post
        post .parse) := by
    intro p
    have hparse : Spends n (n + 2) (attemptAt turn .post >>= fun _ => post .parse) :=
      spends_then n _ _ _ (spends_attemptAt n turn _) fun _ => spends_post n .parse
    have hreceived : Spends n (n + 3) (receive turn >>= fun _ => attemptAt turn .post >>= fun _ =>
        post .parse) :=
      (spends_bind n 1 (n + 2) _ _ (spends_receive n turn) fun _ => hparse).mono n (n + 3) (by omega)
    have hrefused : Spends n (n + 3) (reportDrops turn false >>= fun _ => receive turn) :=
      (spends_then n 1 _ _ (spends_reportDrops n turn false) fun _ => spends_receive n turn).mono n (n + 3)
        (by omega)
    refine spends_then n _ _ _ (spends_rest n _ fun _ => ⟨rfl, rfl, rfl, rfl, rfl⟩) fun _ =>
      spends_ite n _ _ _ _ hrefused ?_
    refine spends_then n _ _ _ (spends_attemptAt n turn _) fun _ =>
      spends_then n _ _ _ (spends_attemptAt n turn _) fun _ => ?_
    exact spends_then n _ _ _ (spends_attemptAt n turn _) fun _ => hreceived
  refine spends_get n _ _ fun p => spends_then n _ _ _ (spends_rest n _ fun _ => ⟨rfl, rfl, rfl, rfl, rfl⟩)
    fun _ => ?_
  exact spends_ite n _ _ _ _ (spends_then n _ _ _ (spends_log n turn _ _) fun _ => hdeliver p) (hdeliver p)

theorem spends_parseAndDispatch (hsinks : turn.sinks.length ≤ n) :
    Spends n (n + 1) (parseAndDispatch turn) := by
  have hforward : Spends n 1 (attemptAt turn .postForward >>= fun _ => post .forward) :=
    spends_then n 1 _ _ (spends_attemptAt n turn _) fun _ => spends_post n .forward
  have hrest := spends_bind n _ 1 _ _ (spends_postEach n turn .postWrite turn.sinks) fun _ =>
    spends_get n 1 _ fun p => spends_ite n 1 (p.forwarding = true) _ _ hforward
      ((spends_pure n).mono n 1 (by omega))
  exact (spends_then n _ _ _ (spends_attemptAt n turn _) fun _ => hrest).mono n (n + 1) (by omega)

end Spends

/-! ## Winding down -/

section Winding

variable {p : Process} {closed : List ℕ}

theorem cost_erase (i : ℕ) (h : Handler) (hi : p.queue[i]? = some h) :
    cost { p with queue := p.queue.eraseIdx i } + weight p.sinkCount h = cost p := by
  obtain ⟨hlt, hget⟩ := List.getElem?_eq_some_iff.mp hi
  have hsum := ((List.getElem_cons_eraseIdx_perm hlt).map (weight p.sinkCount)).sum_eq
  rw [List.map_cons, List.sum_cons, hget] at hsum
  unfold cost
  dsimp only
  omega

/-- A handler brings less than it weighs. -/
theorem handle_spends (turn : Turn) (hw : Winding ⟨p, closed⟩) (i : ℕ) (h : Handler) (hi : p.queue[i]? = some h)
    (hobeys : Obeys ⟨p, closed⟩ i turn) : ∃ k, k + 1 = weight p.sinkCount h ∧
      wp (handle turn h) (fun _ p' => Spent p.sinkCount k { p with queue := p.queue.eraseIdx i } p')
        (fun _ p' => Spent p.sinkCount k { p with queue := p.queue.eraseIdx i } p')
        { p with queue := p.queue.eraseIdx i } := by
  have hclosed := hw.socketClosed
  have hmem := List.mem_of_getElem? hi
  have hspends : ∀ (k : ℕ) (x : Task Unit), k + 1 = weight p.sinkCount h → Spends p.sinkCount k x → ∃ k,
      k + 1 = weight p.sinkCount h ∧
      wp x (fun _ p' => Spent p.sinkCount k { p with queue := p.queue.eraseIdx i } p')
        (fun _ p' => Spent p.sinkCount k { p with queue := p.queue.eraseIdx i } p')
        { p with queue := p.queue.eraseIdx i } :=
    fun k x hk hx => ⟨k, hk, hx _ hclosed rfl⟩
  have hsink : ∀ sink, Spends p.sinkCount 0 (sinkHandler turn sink) := fun sink => spends_rest _ _ fun q => by
    split
    · exact ⟨rfl, rfl, rfl, rfl, rfl⟩
    · exact ⟨rfl, rfl, rfl, rfl, rfl⟩
  have hunchanged : Spent p.sinkCount 0 { p with queue := p.queue.eraseIdx i }
      { p with queue := p.queue.eraseIdx i } :=
    ⟨hclosed, rfl, Nat.le_refl _⟩
  cases h with
  | received c =>
    cases c with
    | datagram bytes => exact hspends _ _ rfl (spends_datagram _ turn bytes)
    | failed ec =>
      cases ec with
      | operationAborted => exact hspends _ _ rfl (spends_pure _)
      | badDescriptor => exact hspends _ _ rfl (spends_pure _)
      | other message => exact hspends _ _ rfl (spends_handleReceiveError _ turn message)
  | rearm cancelled =>
    cases cancelled with
    | true => exact hspends _ _ rfl (spends_pure _)
    | false => exact hspends _ _ rfl (spends_receive _ turn)
  | parse => exact hspends _ _ rfl (spends_parseAndDispatch _ turn hobeys.routed.1)
  | write sink => exact hspends _ _ rfl (hsink sink)
  | reopen sink cancelled => exact hspends _ _ rfl (spends_ite _ 0 _ _ _ (spends_pure _) (hsink sink))
  | forward => exact hspends _ _ rfl (spends_attemptAt _ turn _)
  | resolved found =>
    refine ⟨0, rfl, ?_⟩
    have hstopping : p.forwarderStopping = true := hw.stopping _ hmem rfl
    unfold handle onResolved
    dsimp only
    rw [wp_bind, wp_get, if_pos hstopping]
    exact hunchanged
  | retryResolve cancelled =>
    refine ⟨0, rfl, ?_⟩
    have hstopping : p.forwarderStopping = true := hw.stopping _ hmem rfl
    unfold handle
    dsimp only
    rw [wp_bind, wp_get]
    rw [if_pos (show (cancelled || p.forwarderStopping) = true by rw [hstopping, Bool.or_true])]
    exact hunchanged
  | closeSink | stopForwarder | stopServer | signal => cases hw.none _ hmem

/-- Every occurrence that does something leaves less to do. -/
theorem occur_cost (hw : Winding ⟨p, closed⟩) (o : Occurrence) (hallowed : Allowed ⟨p, closed⟩ o) :
    cost (occur p o) + (Effective p o).toNat ≤ cost p := by
  cases o with
  | received c =>
    have hr := hw.sound.receiving hw.socketClosed
    change p.receiving = false at hr
    unfold occur Effective
    dsimp only
    rw [hr, Bool.false_and, if_neg Bool.false_ne_true]
    exact Nat.le_refl _
  | rearmExpired =>
    unfold occur Effective
    dsimp only
    cases hr : p.rearming with
    | false => exact Nat.le_refl _
    | true =>
      have hpost := cost_post { p with rearming := false } (.rearm false)
      have hdone : cost { p with rearming := false } + 3 = cost p := by
        unfold cost
        dsimp only
        rw [hr, Bool.toNat_true, Bool.toNat_false]
        omega
      have hweight : weight p.sinkCount (.rearm false) = 2 := rfl
      rw [if_pos rfl, Bool.toNat_true]
      dsimp only at hpost
      omega
  | sinkTimerExpired sink =>
    have ht := hw.sinkTimers
    change p.sinkTimers = [] at ht
    unfold occur Effective
    dsimp only
    rw [ht, if_neg List.not_mem_nil]
    exact Nat.le_refl _
  | lookedUp found =>
    unfold occur Effective
    dsimp only
    cases hl : p.lookup with
    | false => exact Nat.le_refl _
    | true =>
      have hpost := cost_post { p with lookup := false } (.resolved found)
      have hdone : cost { p with lookup := false } + 2 = cost p := by
        unfold cost
        dsimp only
        rw [hl, Bool.toNat_true, Bool.toNat_false]
      have hweight : weight p.sinkCount (.resolved found) = 1 := rfl
      rw [if_pos rfl, Bool.toNat_true]
      dsimp only at hpost
      omega
  | resolveTimerExpired =>
    have ht := hw.resolveTimer
    change p.resolveTimer = false at ht
    unfold occur Effective
    dsimp only
    rw [ht, if_neg Bool.false_ne_true]
    exact Nat.le_refl _
  | signalled =>
    have hreq := hw.requested
    have hwaiter := hw.sound.waiter hreq
    change p.stopRequested = true at hreq
    change p.waiter = false at hwaiter
    unfold occur Effective
    dsimp only
    rw [hwaiter, hreq, if_neg Bool.false_ne_true, Bool.not_true, Bool.and_false, if_neg Bool.false_ne_true]
    exact Nat.le_refl _
  | released bytes => exact Nat.le_refl _
  | runs i turn =>
    unfold occur Effective
    dsimp only
    cases hi : p.queue[i]? with
    | none =>
      have hge := List.getElem?_eq_none_iff.mp hi
      rw [decide_eq_false (Nat.not_lt.mpr hge)]
      exact Nat.le_refl _
    | some h =>
      obtain ⟨k, hk, hwp⟩ := handle_spends turn hw i h hi hallowed
      have hspent := runHandler_of turn h _ _ hwp hallowed.reported fun p' log hp' => ⟨hp'.socketOpen,
        hp'.sinkCount, hp'.cost⟩
      have hcost := hspent.cost
      have herase := cost_erase i h hi
      have hone := (decide (i < p.queue.length)).toNat_le
      dsimp only
      omega

theorem next_cost (hw : Winding ⟨p, closed⟩) (o : Occurrence) (hallowed : Allowed ⟨p, closed⟩ o) :
    cost (next p o) + (if p.returned = false ∧ Effective p o = true then 1 else 0) ≤ cost p := by
  have hoccur := occur_cost hw o hallowed
  unfold next
  cases hret : p.returned with
  | true => simp
  | false =>
    have hcount : (if false = false ∧ Effective p o = true then 1 else 0) = (Effective p o).toNat := by
      cases Effective p o with
      | true => rfl
      | false => rfl
    rw [hcount, if_neg Bool.false_ne_true]
    dsimp only
    split
    · exact hoccur
    · exact hoccur

theorem Winding.next (hw : Winding ⟨p, closed⟩) (o : Occurrence) (hallowed : Allowed ⟨p, closed⟩ o) :
    Winding (Stage.next ⟨p, closed⟩ o) := by
  have hstop : ∀ i turn h, o = .runs i turn → p.queue[i]? = some h → h.ofStop = false := fun i turn h _ hi =>
    hw.none h (List.mem_of_getElem? hi)
  have hclosing : closing p o = Option.none := by
    cases o with
    | runs i turn =>
      unfold closing
      dsimp only
      split
      case h_1 sink hi => cases hstop i turn _ rfl hi
      case h_2 => rfl
    | _ => rfl
  unfold Stage.next
  dsimp only
  rw [hclosing, Option.toList_none, List.nil_append, ite_self]
  exact hw.harmless (next_harmless hw.sound o hallowed hstop fun _ => hw.requested)

end Winding

/-! ## Runs -/

/-- The loop goes on as long as something is outstanding. -/
def Going (p : Process) : Prop := p.returned = false → outstanding p = true

theorem next_going (p : Process) (o : Occurrence) (h : Going p) : Going (next p o) := by
  unfold next
  split
  · exact h
  · dsimp only
    split
    case isTrue hout => exact fun _ => hout
    case isFalse => exact fun hr => by cases hr

theorem run_sound (s : Stage) (occurrences : List Occurrence) (hs : Sound s) (hg : Going s.process)
    (hallowed : AllowedAll s occurrences) :
    Sound (s.run occurrences) ∧ Going (s.run occurrences).process := by
  induction occurrences generalizing s with
  | nil => exact ⟨hs, hg⟩
  | cons o occurrences ih => exact ih (s.next o) (next_sound s o hs hallowed.1) (next_going _ _ hg) hallowed.2

theorem run_cost (s : Stage) (occurrences : List Occurrence) (hw : Winding s) (hg : Going s.process)
    (hallowed : AllowedAll s occurrences) :
    Winding (s.run occurrences) ∧ Going (s.run occurrences).process ∧
      cost (s.run occurrences).process + effectiveSteps s occurrences ≤ cost s.process := by
  induction occurrences generalizing s with
  | nil => exact ⟨hw, hg, Nat.le_refl _⟩
  | cons o occurrences ih =>
    obtain ⟨hw', hg', hcost⟩ := ih (s.next o) (hw.next o hallowed.1) (next_going _ _ hg) hallowed.2
    have hnext := next_cost hw o hallowed.1
    refine ⟨hw', hg', ?_⟩
    change cost (Stage.run (s.next o) occurrences).process + _ ≤ _
    rw [effectiveSteps]
    change _ ≤ cost (next s.process o) at hcost
    omega

theorem allowedAll_append (s : Stage) (before after : List Occurrence) (h : AllowedAll s (before ++ after)) :
    AllowedAll s before ∧ AllowedAll (s.run before) after := by
  induction before generalizing s with
  | nil => exact ⟨trivial, h⟩
  | cons o before ih =>
    obtain ⟨hbefore, hafter⟩ := ih (s.next o) h.2
    exact ⟨⟨h.1, hbefore⟩, hafter⟩

theorem weight_le (n : ℕ) (h : Handler) : weight n h ≤ n + 4 := by
  unfold weight
  split
  all_goals omega

theorem cost_le (p : Process) : cost p ≤ (p.sinkCount + 4) * p.queue.length + 5 := by
  have hsum : ∀ queue : List Handler, (queue.map (weight p.sinkCount)).sum ≤
      (p.sinkCount + 4) * queue.length := by
    intro queue
    induction queue with
    | nil => exact Nat.zero_le _
    | cons h queue ih =>
      have hone := weight_le p.sinkCount h
      rw [List.map_cons, List.sum_cons, List.length_cons, Nat.mul_succ]
      omega
  have hqueue := hsum p.queue
  have hrearming := p.rearming.toNat_le
  have hlookup := p.lookup.toNat_le
  unfold cost
  omega

def startedStage (service lookup forwarding : Bool) (sinkCount budget : ℕ) : Stage :=
  ⟨started service lookup forwarding sinkCount budget, []⟩

theorem started_sound (service lookup forwarding : Bool) (hlookup : lookup = true → forwarding = true)
    (sinkCount budget : ℕ) :
    Sound (startedStage service lookup forwarding sinkCount budget) :=
  ⟨fun _ _ h => absurd h List.not_mem_nil, fun h => (by cases h), fun h => (by cases h),
    fun h => (by cases h), fun h => (by cases h), fun h => (by cases h), fun h => (by cases h),
    fun hf => ⟨Bool.eq_false_iff.mpr fun hl => Bool.false_ne_true (hf.symm.trans (hlookup hl)), rfl,
      fun _ h => absurd h List.not_mem_nil⟩, ⟨fun _ h => absurd h List.not_mem_nil,
        fun _ h => absurd h List.not_mem_nil⟩, fun _ h => absurd h List.not_mem_nil, List.nodup_nil⟩

/-- A stop that has been requested and whose handlers have run comes to its end. -/
theorem stage_returns (s : Stage) (hs : Sound s) (hg : Going s.process) (before after : List Occurrence)
    (hallowed : AllowedAll s (before ++ after)) (hrequested : (s.run before).process.stopRequested = true)
    (hstopped : ∀ h ∈ (s.run before).process.queue, h.ofStop = false) :
    effectiveSteps (s.run before) after ≤
        ((s.run before).process.sinkCount + 4) * (s.run before).process.queue.length + 5 ∧
      (((s.run before).run after).process.returned = false →
        ∃ o, Effective ((s.run before).run after).process o = true) := by
  obtain ⟨hbefore, hafter⟩ := allowedAll_append _ before after hallowed
  obtain ⟨hsound, hgoing⟩ := run_sound _ before hs hg hbefore
  obtain ⟨hwinding, hgoing', hcost⟩ :=
    run_cost (s.run before) after ⟨hsound, hrequested, hstopped⟩ hgoing hafter
  have hbound := cost_le (s.run before).process
  exact ⟨by omega, fun hr => hwinding.effective (hgoing' hr)⟩

end Minilog.Server
