import Minilog.Lib.Bytes
import Minilog.Lib.Effect

/-! The server process as an event loop: the receive path of `udp_server.cpp` with `receive_backoff.hpp` and
`admission.hpp`, the handlers of the other components as far as they are outstanding work, and `runIoContext`.

A handler runs to its end or to the statement that throws; a `Turn` says which statements throw. Operations
that are pending turn into queued handlers when they complete. The handlers of sinks and forwarder are
modelled by what they leave pending: whether they arm a timer is an input. `run` of the `io_context` returns
once nothing is outstanding. -/
namespace Minilog.Server
open Lib
set_option autoImplicit false

/-! ## ReceiveBackoff -/

/-- Times are in nanoseconds, the ticks of the steady clock; delays are in milliseconds. -/
structure ReceiveBackoff where
  streak : ℕ := 0
  unreported : ℕ := 0
  streakReported : Bool := false
  delay : ℕ := 0
  lastReport : Option ℕ := none
deriving DecidableEq

namespace ReceiveBackoff

structure Decision where
  delay : ℕ := 0
  report : Bool := false
  suppressed : ℕ := 0

def kFirstDelay : ℕ := 50
def kMaxDelay : ℕ := 1000
def kReportInterval : ℕ := 60 * 10 ^ 9

/-- The two counters are 64 bits wide. -/
def onError (b : ReceiveBackoff) (now : ℕ) : Decision × ReceiveBackoff :=
  let streak := (b.streak + 1) % 2 ^ 64
  let unreported := (b.unreported + 1) % 2 ^ 64
  let delay := if streak = 1 then kFirstDelay else min (b.delay * 2) kMaxDelay
  match b.lastReport with
  | none => (⟨delay, true, 0⟩, ⟨streak, 0, true, delay, some now⟩)
  | some last =>
    if kReportInterval ≤ now - last then (⟨delay, true, unreported⟩, ⟨streak, 0, true, delay, some now⟩)
    else (⟨delay, false, 0⟩, { b with streak := streak, unreported := unreported, delay := delay })

def onSuccess (b : ReceiveBackoff) : ℕ × ReceiveBackoff :=
  (if b.streakReported then b.streak else 0, { b with streak := 0, streakReported := false, delay := 0 })

end ReceiveBackoff

/-! ## AdmissionControl -/

structure AdmissionControl where
  budget : ℕ
  inFlight : ℕ := 0
  droppedWindow : ℕ := 0
  droppedTotal : ℕ := 0
deriving DecidableEq

namespace AdmissionControl

/-- The charge of `admit`; the token is allocated after it. `inFlight` is 64 bits wide; the drops are counted
without a bound. -/
def charge (a : AdmissionControl) (bytes : ℕ) : Bool × AdmissionControl :=
  if a.budget < (a.inFlight + bytes) % 2 ^ 64 then
    (false, { a with droppedWindow := a.droppedWindow + 1, droppedTotal := a.droppedTotal + 1 })
  else (true, { a with inFlight := (a.inFlight + bytes) % 2 ^ 64 })

def takeDropped (a : AdmissionControl) : ℕ × AdmissionControl :=
  (a.droppedWindow, { a with droppedWindow := 0 })

end AdmissionControl

/-! ## Work -/

inductive ErrorCode where
  | operationAborted
  | badDescriptor
  | other (message : Bytes)
deriving DecidableEq

/-- How a receive ends. -/
inductive Completion where
  | datagram (bytes : ℕ)
  | failed (ec : ErrorCode)
deriving DecidableEq

/-- The handlers that can be queued. `received` is `onReceive`, `rearm`, `reopen` and `retryResolve` belong to
the three kinds of timers, `signal` to the shutdown waiter. -/
inductive Handler where
  | received (c : Completion)
  | rearm (cancelled : Bool)
  | parse
  | write (sink : ℕ)
  | reopen (sink : ℕ) (cancelled : Bool)
  | closeSink (sink : ℕ)
  | forward
  | resolved (found : Bool)
  | retryResolve (cancelled : Bool)
  | stopForwarder
  | stopServer
  | signal
deriving DecidableEq

/-- The statements of handlers that allocate or log. -/
inductive Statement where
  | recoveryLog
  | token
  | dropText
  | dropLog
  | copyData
  | copyAddress
  | armReceive
  | post
  | errorLog
  | armTimer
  | parseMessage
  | postWrite (sink : ℕ)
  | postForward
  | sendForward
  | resolveLog
  | startLookup
  | armResolveTimer
  | postStop
  | postClose (sink : ℕ)
  | postStopForwarder
  | unhandledLog
deriving DecidableEq

/-- The run of one handler: the statements that throw, the time, the sinks a message goes to, whether a sink's
handler leaves its retry timer armed, and whether the forwarder could use its endpoint. -/
structure Turn where
  throws : Statement → Bool := fun _ => false
  now : ℕ := 0
  sinks : List ℕ := []
  armsRetry : Bool := false
  usable : Bool := true

structure Process where
  queue : List Handler := []
  receiving : Bool := false
  rearming : Bool := false
  sinkTimers : List ℕ := []
  lookup : Bool := false
  resolveTimer : Bool := false
  waiter : Bool := false
  service : Bool := false
  socketOpen : Bool := true
  forwarderStopping : Bool := false
  stopRequested : Bool := false
  returned : Bool := false
  caught : Bool := false
  sinkCount : ℕ := 0
  forwarding : Bool := false
  backoff : ReceiveBackoff := {}
  admission : AdmissionControl := ⟨0, 0, 0, 0⟩
  lastDropReport : Option ℕ := none
  osLog : List Bytes := []
deriving DecidableEq

abbrev Task := Effect Process Unit

section Handlers

variable (turn : Turn)

/-- A statement that may throw. -/
def attemptAt (s : Statement) : Task Unit := if turn.throws s then Effect.raise () else pure ()

def post (h : Handler) : Task Unit := Effect.modify fun p => { p with queue := p.queue ++ [h] }

/-- Post one handler for each sink. -/
def postEach (s : ℕ → Statement) (h : ℕ → Handler) : List ℕ → Task Unit
  | [] => return ()
  | sink :: sinks => do
    attemptAt turn (s sink)
    post (h sink)
    postEach s h sinks

def log (s : Statement) (line : Bytes) : Task Unit := do
  attemptAt turn s
  Effect.modify fun p => { p with osLog := p.osLog ++ [line] }

/-! ## UdpServer -/

/-- A receive on a closed socket completes at once. -/
def receive : Task Unit := do
  attemptAt turn .armReceive
  let p ← Effect.get
  if p.socketOpen then Effect.modify fun p => { p with receiving := true }
  else post (.received (.failed .badDescriptor))

def dropReportInterval : ℕ := 10 * 10 ^ 9

def reportedRecently (lastDropReport : Option ℕ) (now : ℕ) : Bool :=
  match lastDropReport with
  | some last => now - last < dropReportInterval
  | none => false

/-- Over which time the drops happened. -/
def dropPeriod (lastDropReport : Option ℕ) (now : ℕ) : Bytes :=
  match lastDropReport with
  | none => []
  | some last =>
    let ms := (now - last) / 10 ^ 6
    if ms < 1000 then ascii " in the last " ++ numeral ms ++ ascii " ms"
    else ascii " in the last " ++ numeral (ms / 1000) ++ ascii " s"

def reportDrops (force : Bool) : Task Unit := do
  let p ← Effect.get
  if force = false ∧ reportedRecently p.lastDropReport turn.now = true then return ()
  let dropped := p.admission.takeDropped.1
  Effect.modify fun p => { p with admission := p.admission.takeDropped.2 }
  if dropped = 0 then return ()
  attemptAt turn .dropText
  Effect.modify fun p => { p with lastDropReport := some turn.now }
  log turn .dropLog (ascii "minilog: dropped " ++ numeral dropped ++ ascii " datagram(s)" ++
    dropPeriod p.lastDropReport turn.now ++ [0x20, 0xE2, 0x80, 0x94] ++
    ascii " the receive queue reached max_queue_bytes (" ++ numeral p.admission.budget ++
    ascii "). Datagrams are arriving faster than they can be written.")

def handleReceiveError (message : Bytes) : Task Unit := do
  let p ← Effect.get
  let decision := (p.backoff.onError turn.now).1
  Effect.modify fun p => { p with backoff := (p.backoff.onError turn.now).2 }
  if decision.report then
    log turn .errorLog (ascii "minilog: receive error: " ++ message ++
      (if decision.suppressed ≠ 0 then
        ascii " (" ++ numeral decision.suppressed ++
        ascii " further receive error(s) since the last report)" else []))
  attemptAt turn .armTimer
  Effect.modify fun p => { p with rearming := true }

def onReceive (c : Completion) : Task Unit :=
  match c with
  | .failed .operationAborted => return ()
  | .failed .badDescriptor => return ()
  | .failed (.other message) => handleReceiveError turn message
  | .datagram bytes => do
    let p ← Effect.get
    let ended := p.backoff.onSuccess.1
    Effect.modify fun p => { p with backoff := p.backoff.onSuccess.2 }
    if ended ≠ 0 then
      log turn .recoveryLog (ascii "minilog: receiving again after " ++ numeral ended ++
        ascii " consecutive receive error(s)")
    let admitted := (p.admission.charge bytes).1
    Effect.modify fun p => { p with admission := (p.admission.charge bytes).2 }
    if admitted = false then
      reportDrops turn false
      receive turn
    else
      attemptAt turn .token
      attemptAt turn .copyData
      attemptAt turn .copyAddress
      receive turn
      attemptAt turn .post
      post .parse

/-- The handler `stop` posts. -/
def stopServer : Task Unit := do
  let p ← Effect.get
  Effect.modify fun p => { p with socketOpen := false }
  if p.receiving then
    Effect.modify fun p => { p with receiving := false }
    post (.received (.failed .operationAborted))
  if p.rearming then
    Effect.modify fun p => { p with rearming := false }
    post (.rearm true)
  reportDrops turn true

/-! ## The other components -/

/-- Parsing, `OutputManager::dispatch` and `Forwarder::forward`. -/
def parseAndDispatch : Task Unit := do
  attemptAt turn .parseMessage
  postEach turn .postWrite .write turn.sinks
  let p ← Effect.get
  if p.forwarding then
    attemptAt turn .postForward
    post .forward

/-- A handler of a sink lets nothing out; it may leave the retry timer armed. -/
def sinkHandler (sink : ℕ) : Task Unit :=
  Effect.modify fun p => if turn.armsRetry then { p with sinkTimers := sink :: p.sinkTimers.erase sink } else p

def closeSink (sink : ℕ) : Task Unit :=
  Effect.modify fun p =>
    if sink ∈ p.sinkTimers then
      { p with sinkTimers := p.sinkTimers.erase sink, queue := p.queue ++ [.reopen sink true] } else p

def scheduleResolveRetry : Task Unit := do
  let p ← Effect.get
  if p.forwarderStopping then return ()
  attemptAt turn .armResolveTimer
  Effect.modify fun p => { p with resolveTimer := true }

/-- The completion of a lookup; an endpoint that cannot be used is looked up again later. -/
def onResolved (found : Bool) : Task Unit := do
  let p ← Effect.get
  if p.forwarderStopping then return ()
  attemptAt turn .resolveLog
  if found && turn.usable then return ()
  scheduleResolveRetry turn

def startResolve : Task Unit := do
  attemptAt turn .startLookup
  Effect.modify fun p => { p with lookup := true }

def stopForwarder : Task Unit :=
  Effect.modify fun p =>
    { p with
      forwarderStopping := true
      resolveTimer := false
      queue := if p.resolveTimer then p.queue ++ [.retryResolve true] else p.queue }

/-- What `runServer` does when a stop is requested. -/
def onStop : Task Unit := do
  attemptAt turn .postStop
  post .stopServer
  let p ← Effect.get
  postEach turn .postClose .closeSink (List.range p.sinkCount)
  if p.forwarding then
    attemptAt turn .postStopForwarder
    post .stopForwarder

def handle (h : Handler) : Task Unit :=
  match h with
  | .received c => onReceive turn c
  | .rearm cancelled => if cancelled then return () else receive turn
  | .parse => parseAndDispatch turn
  | .write sink => sinkHandler turn sink
  | .reopen sink cancelled => if cancelled then return () else sinkHandler turn sink
  | .closeSink sink => closeSink sink
  | .forward => attemptAt turn .sendForward
  | .resolved found => onResolved turn found
  | .retryResolve cancelled => do
    let p ← Effect.get
    if cancelled || p.forwarderStopping then return () else startResolve turn
  | .stopForwarder => stopForwarder
  | .stopServer => stopServer turn
  | .signal => onStop turn

end Handlers

/-! ## The loop -/

/-- What can happen next: a pending operation completes, the last copy of a message is gone, or a worker runs
a queued handler. -/
inductive Occurrence where
  | received (c : Completion)
  | rearmExpired
  | sinkTimerExpired (sink : ℕ)
  | lookedUp (found : Bool)
  | resolveTimerExpired
  | signalled
  | released (bytes : ℕ)
  | runs (i : ℕ) (turn : Turn)

/-- A receive is aborted, or finds no socket, only on a socket that has been closed. -/
def Completion.possible (c : Completion) (socketOpen : Bool) : Bool :=
  match c with
  | .failed .operationAborted => !socketOpen
  | .failed .badDescriptor => !socketOpen
  | _ => true

def outstanding (p : Process) : Bool :=
  p.receiving || p.rearming || p.lookup || p.resolveTimer || p.waiter || !p.queue.isEmpty ||
    !p.sinkTimers.isEmpty

/-- One handler under `runIoContext`: what it throws is caught and reported, unless the report throws too. -/
def runHandler (turn : Turn) (h : Handler) (p : Process) : Process :=
  match handle turn h p with
  | (.ok _, p') => p'
  | (.error _, p') =>
    if turn.throws .unhandledLog then { p' with caught := true, returned := true }
    else { p' with caught := true, osLog := p'.osLog ++
      [ascii "minilog: unhandled exception in io_context handler"] }

def occur (p : Process) (o : Occurrence) : Process :=
  match o with
  | .received c =>
    if p.receiving && c.possible p.socketOpen then
      { p with receiving := false, queue := p.queue ++ [.received c] } else p
  | .rearmExpired => if p.rearming then { p with rearming := false, queue := p.queue ++ [.rearm false] } else p
  | .sinkTimerExpired sink =>
    if sink ∈ p.sinkTimers then
      { p with sinkTimers := p.sinkTimers.erase sink, queue := p.queue ++ [.reopen sink false] } else p
  | .lookedUp found => if p.lookup then { p with lookup := false, queue := p.queue ++ [.resolved found] } else p
  | .resolveTimerExpired =>
    if p.resolveTimer then { p with resolveTimer := false, queue := p.queue ++ [.retryResolve false] } else p
  | .signalled =>
    if p.waiter then { p with waiter := false, stopRequested := true, queue := p.queue ++ [.signal] }
    -- a Windows service waits on a thread of its own
    else if p.service && !p.stopRequested then { p with stopRequested := true, queue := p.queue ++ [.signal] }
    else p
  | .released bytes => { p with admission := { p.admission with inFlight := p.admission.inFlight - bytes } }
  | .runs i turn =>
    match p.queue[i]? with
    | none => p
    | some h => runHandler turn h { p with queue := p.queue.eraseIdx i }

/-- `io_context::run` returns when nothing is outstanding. -/
def next (p : Process) (o : Occurrence) : Process :=
  if p.returned then p
  else
    let p' := occur p o
    if outstanding p' then p' else { p' with returned := true }

def runProcess (p : Process) (occurrences : List Occurrence) : Process := occurrences.foldl next p

/-- The process after `UdpServer::start`. The shutdown waiter is work of the loop unless the process is a
Windows service; a lookup is pending if the forwarder's host is a name. -/
def started (service lookup forwarding : Bool) (sinkCount budget : ℕ) : Process :=
  { receiving := true, waiter := !service, service := service, lookup := lookup, forwarding := forwarding,
    sinkCount := sinkCount, admission := { budget := budget } }

end Minilog.Server
