import Minilog.Lib.Transition
import Minilog.Server.Facilities

/-! The forwarder (`forwarder/forwarder.hpp`, `forwarder/forwarder.cpp`) and what holds of all its runs.

Its handlers run one at a time, on a strand. An action is a call from outside, the end of a lookup, the expiry
of the retry timer, or the run of the oldest handler; so every order of the handlers is the order of some
actions. What the library does is an argument: `make_address` on the host, the results of a lookup, the errors
of `open` and `send_to`. `trace` lists what the handlers have done. -/
namespace Minilog.Server
open Lib
open Minilog.Parser
set_option autoImplicit false

structure Endpoint where
  address : Bytes := ascii "0.0.0.0"
  port : ℕ := 0
deriving DecidableEq

namespace Forwarder

inductive Handler where
  | resolved (firstAttempt : Bool) (ec : Option Bytes) (results : List Endpoint)
  | retry (cancelled : Bool)
  | forward (msg : SyslogMessage)
  | stop
deriving DecidableEq

/-- What a handler does that can be seen, and what becomes of a message. -/
inductive Event where
  | lookup (firstAttempt : Bool)
  | wait (delay : ℕ)
  | failed (line : Bytes)
  | adopted (endpoint : Endpoint)
  | announced (dropped : ℕ) (line : Bytes)
  | filtered (msg : SyslogMessage)
  | counted (msg : SyslogMessage)
  | sent (msg : SyslogMessage) (payload : Bytes) (endpoint : Endpoint)
  | notSent (line : Bytes)
  | stopped
deriving DecidableEq

def kFirstRetryDelay : ℕ := 1

def kMaxRetryDelay : ℕ := 60

end Forwarder

/-- The members of the class, the lookups under way, the delay of the timer while it runs, and the strand. -/
structure Forwarder where
  cfg : ForwardingConfig
  endpoint : Endpoint := {}
  retryDelay : ℕ := Forwarder.kFirstRetryDelay
  droppedUnresolved : ℕ := 0
  resolveAttempts : ℕ := 0
  resolved : Bool := false
  stopping : Bool := false
  failureReported : Bool := false
  lookups : List Bool := []
  timer : Option ℕ := none
  queue : List Forwarder.Handler := []
  trace : List Forwarder.Event := []
deriving DecidableEq

namespace Forwarder

/-! ## The functions -/

def emit (f : Forwarder) (e : Event) : Forwarder := { f with trace := f.trace ++ [e] }

/-- `describe`. -/
def described (cfg : ForwardingConfig) : Bytes := ascii "'" ++ cfg.host ++ ascii "'"

def cannotResolve (cfg : ForwardingConfig) (ec : Option Bytes) : Bytes :=
  ascii "minilog: cannot resolve [forwarding] host " ++ described cfg ++ ascii ": " ++
    ec.getD (ascii "no addresses returned") ++
    ascii (". Forwarding is off and resolution will be retried in the background; " ++
      "the rest of minilog is unaffected.")

def cannotOpen (cfg : ForwardingConfig) (ec : Bytes) : Bytes :=
  ascii "minilog: cannot open a forwarding socket for [forwarding] host " ++ described cfg ++ ascii ": " ++
    ec ++ ascii ". Forwarding is off and will be retried in the background; the rest of minilog is unaffected."

/-- The line that ends an outage, or the wait for the first lookup. -/
def resumed (f : Forwarder) (endpoint : Endpoint) : Bytes :=
  let place := ascii "minilog: [forwarding] host " ++ described f.cfg ++ ascii " resolved to " ++
    endpoint.address ++ ascii " port " ++ numeral f.cfg.port ++ ascii "; "
  if f.failureReported then
    place ++ ascii "forwarding resumed after dropping " ++ numeral f.droppedUnresolved ++
      ascii " message(s) while it was unresolved"
  else
    place ++ ascii "forwarding started; " ++ numeral f.droppedUnresolved ++
      ascii " message(s) arrived before the lookup finished and were not forwarded"

def cannotSend (cfg : ForwardingConfig) (ec : Bytes) : Bytes :=
  ascii "minilog: forward to " ++ cfg.host ++ ascii ":" ++ numeral cfg.port ++ ascii " failed: " ++ ec

def truncateIfNeeded (raw : Bytes) (maxSize : ℕ) : Bytes :=
  if maxSize = 0 ∨ raw.length ≤ maxSize then raw
  else
    let mark := ascii "[TRUNCATED: " ++ numeral raw.length ++ ascii " bytes]"
    if maxSize ≤ mark.length then raw.take maxSize else raw.take (maxSize - mark.length) ++ mark

/-- A wait that is cancelled completes with an error. -/
def cancelTimer (f : Forwarder) : Forwarder :=
  match f.timer with
  | none => f
  | some _ => { f with timer := none, queue := f.queue ++ [.retry true] }

/-- `expires_after` cancels the wait it replaces. -/
def scheduleResolveRetry (f : Forwarder) : Forwarder :=
  if f.stopping then f else { f.cancelTimer with timer := some f.retryDelay }.emit (.wait f.retryDelay)

def backOff (f : Forwarder) : Forwarder := { f with retryDelay := min (f.retryDelay * 2) kMaxRetryDelay }

def useEndpoint (f : Forwarder) (endpoint : Endpoint) (openError : Option Bytes) : Forwarder :=
  match openError with
  | some ec =>
    let f := if f.failureReported then f else { f with failureReported := true }.emit
      (.failed (cannotOpen f.cfg ec))
    f.backOff.scheduleResolveRetry
  | none =>
    let f := { f with endpoint := endpoint, resolved := true }.emit (.adopted endpoint)
    if f.droppedUnresolved ≠ 0 then
      { f with droppedUnresolved := 0 }.emit (.announced f.droppedUnresolved (f.resumed endpoint))
    else f

def startResolve (f : Forwarder) (firstAttempt : Bool) : Forwarder :=
  { f with lookups := f.lookups ++ [firstAttempt] }.emit (.lookup firstAttempt)

/-- The completion handler of a lookup. -/
def onResolved (f : Forwarder) (firstAttempt : Bool) (ec : Option Bytes) (results : List Endpoint)
    (openError : Option Bytes) :
    Forwarder :=
  let f := { f with resolveAttempts := (f.resolveAttempts + 1) % 2 ^ 64 }
  if f.stopping then f
  else
    match ec, results with
    | none, endpoint :: _ => f.useEndpoint endpoint openError
    | _, _ =>
      let f :=
        if firstAttempt then { f with failureReported := true }.emit (.failed (cannotResolve f.cfg ec))
        else f.backOff
      f.scheduleResolveRetry

def doForward (f : Forwarder) (msg : SyslogMessage) (sendError : Option Bytes) : Forwarder :=
  if f.cfg.enabled = false then f
  else if facilityMatches f.cfg.facilities f.cfg.excludedFacilities msg.facility = false
    then f.emit (.filtered msg)
  else if f.resolved = false then
    { f with droppedUnresolved := (f.droppedUnresolved + 1) % 2 ^ 64 }.emit (.counted msg)
  else
    let f := f.emit (.sent msg (truncateIfNeeded msg.raw f.cfg.maxMessageSize) f.endpoint)
    match sendError with
    | none => f
    | some ec => f.emit (.notSent (cannotSend f.cfg ec))

/-- The handler `stop` posts. A lookup that is under way is not cancelled by it. -/
def onStop (f : Forwarder) : Forwarder := ({ f with stopping := true }.cancelTimer).emit .stopped

def handle (f : Forwarder) (openError sendError : Option Bytes) : Handler → Forwarder
  | .resolved firstAttempt ec results => f.onResolved firstAttempt ec results openError
  | .retry cancelled => if cancelled || f.stopping then f else f.startResolve false
  | .forward msg => f.doForward msg sendError
  | .stop => f.onStop

/-- The constructor; `literal` is what `make_address` makes of the host. -/
def make (cfg : ForwardingConfig) (literal : Option Bytes) (openError : Option Bytes) : Forwarder :=
  let f : Forwarder := { cfg := cfg }
  if cfg.enabled = false then f
  else
    match literal with
    | some address => f.useEndpoint ⟨address, cfg.port⟩ openError
    | none => f.startResolve true

/-! ## The actions -/

inductive Action where
  | forward (msg : SyslogMessage)
  | stop
  | lookupReturns (i : ℕ) (ec : Option Bytes) (results : List Endpoint)
  | timerExpires
  | run (openError sendError : Option Bytes)

def Action.message : Action → Option SyslogMessage
  | .forward msg => some msg
  | _ => none

def step (f : Forwarder) : Action → Option Forwarder
  | .forward msg => some { f with queue := f.queue ++ [.forward msg] }
  | .stop => some { f with queue := f.queue ++ [.stop] }
  | .lookupReturns i ec results =>
    f.lookups[i]?.map fun firstAttempt =>
      { f with lookups := f.lookups.eraseIdx i, queue := f.queue ++ [.resolved firstAttempt ec results] }
  | .timerExpires => f.timer.map fun _ => { f with timer := none, queue := f.queue ++ [.retry false] }
  | .run openError sendError =>
    match f.queue with
    | [] => none
    | h :: rest => some ({ f with queue := rest }.handle openError sendError h)

/-! ## What an action can do -/

def Handler.completes : Handler → Bool
  | .resolved .. | .retry _ => true
  | .forward _ | .stop => false

/-- The lookups and waits that have not been handled, their queued completions included. -/
def outstanding (f : Forwarder) : ℕ :=
  f.lookups.length + f.timer.isSome.toNat + f.queue.countP Handler.completes

def Event.starts : Event → Bool
  | .lookup _ | .wait _ => true
  | _ => false

/-- What becomes of a message: the count of drops after it and what is seen of it. -/
inductive Fate (f : Forwarder) (msg : SyslogMessage) : ℕ → List Event → Prop where
  | ignored (he : f.cfg.enabled = false) : Fate f msg f.droppedUnresolved []
  | filtered (hm : facilityMatches f.cfg.facilities f.cfg.excludedFacilities msg.facility = false) :
      Fate f msg f.droppedUnresolved [.filtered msg]
  | counted (hm : facilityMatches f.cfg.facilities f.cfg.excludedFacilities msg.facility = true)
    (hr : f.resolved = false) :
      Fate f msg ((f.droppedUnresolved + 1) % 2 ^ 64) [.counted msg]
  | sent (hm : facilityMatches f.cfg.facilities f.cfg.excludedFacilities msg.facility = true)
    (hr : f.resolved = true)
      (lines : List Bytes) : Fate f msg f.droppedUnresolved
        ([.sent msg (truncateIfNeeded msg.raw f.cfg.maxMessageSize) f.endpoint] ++ lines.map .notSent)

def Handler.message : Handler → Option SyslogMessage
  | .forward msg => some msg
  | _ => none

/-- The outcome of an action while there is at most one outstanding lookup or wait, and the message it
brings. -/
inductive Change (f : Forwarder) : List SyslogMessage → Forwarder → Prop where
  | posts (h : Handler) (hh : h.completes = false) :
    Change f h.message.toList { f with queue := f.queue ++ [h] }
  | returns (first : Bool) (ec : Option Bytes) (results : List Endpoint) (hl : f.lookups = [first]) :
      Change f [] { f with lookups := [], queue := f.queue ++ [.resolved first ec results] }
  | expires (ht : f.timer.isSome = true) :
    Change f [] { f with timer := none, queue := f.queue ++ [.retry false] }
  | skips (h : Handler) (rest : List Handler) (hq : f.queue = h :: rest) (hh : h.completes = true)
    (attempts : ℕ) :
      Change f [] { f with queue := rest, resolveAttempts := attempts }
  | adopts (first : Bool) (ec : Option Bytes) (results : List Endpoint) (rest : List Handler)
      (hq : f.queue = .resolved first ec results :: rest) (hs : f.stopping = false) (attempts : ℕ)
      (endpoint : Endpoint) (line : Bytes) :
      Change f [] { f with
        queue := rest, resolveAttempts := attempts, endpoint := endpoint, resolved :=
        true, droppedUnresolved := 0
        trace := f.trace ++ [.adopted endpoint] ++ if f.droppedUnresolved ≠ 0
          then [.announced f.droppedUnresolved line] else [] }
  | fails (first : Bool) (ec : Option Bytes) (results : List Endpoint) (rest : List Handler)
      (hq : f.queue = .resolved first ec results :: rest) (hs : f.stopping = false) (attempts : ℕ)
      (reports : Bool) (hr : reports = true → first = true ∨ f.failureReported = false) (line : Bytes)
      (delay : ℕ) (hd : delay = f.retryDelay ∨ delay = min (f.retryDelay * 2) kMaxRetryDelay) :
      Change f [] { f with
        queue := rest, resolveAttempts := attempts, failureReported :=
        f.failureReported || reports, retryDelay := delay
        timer := some delay, trace := f.trace ++ (if reports then [.failed line] else []) ++ [.wait delay] }
  | retries (cancelled : Bool) (rest : List Handler) (hq : f.queue = .retry cancelled :: rest)
    (hs : f.stopping = false) :
      Change f [] { f with queue := rest, lookups := f.lookups ++ [false], trace := f.trace ++ [.lookup false] }
  | forwards (msg : SyslogMessage) (rest : List Handler) (hq : f.queue = .forward msg :: rest) (dropped : ℕ)
    (more : List Event)
      (hf : Fate f msg dropped more) :
      Change f [] { f with queue := rest, droppedUnresolved := dropped, trace := f.trace ++ more }
  | stops (rest : List Handler) (hq : f.queue = .stop :: rest) :
      Change f [] { f with
        queue := rest ++ if f.timer.isSome then [.retry true] else [], timer := none, stopping := true
        trace := f.trace ++ [.stopped] }

/-! Each function in the one form it can have in a run. -/

section Functions

variable (f : Forwarder)

theorem scheduleResolveRetry_eq (hs : f.stopping = false) (ht : f.timer = none) :
    f.scheduleResolveRetry = { f with
      timer := some f.retryDelay, trace := f.trace ++ [.wait f.retryDelay] } := by
  have hcancel : f.cancelTimer = f := by rw [cancelTimer, ht]
  rw [scheduleResolveRetry, if_neg (by rw [hs]; exact Bool.false_ne_true), hcancel]
  rfl

theorem useEndpoint_adopts (endpoint : Endpoint) : ∃ line, f.useEndpoint endpoint none = { f with
    endpoint := endpoint, resolved := true, droppedUnresolved := 0
    trace := f.trace ++ [.adopted endpoint] ++ if f.droppedUnresolved ≠ 0 then
      [.announced f.droppedUnresolved line] else [] } := by
  refine ⟨resumed { f with endpoint := endpoint, resolved := true, trace := f.trace ++ [.adopted endpoint] }
    endpoint, ?_⟩
  by_cases hzero : f.droppedUnresolved = 0
  · rw [if_neg (not_not.mpr hzero), List.append_nil, useEndpoint]
    simp only [emit, hzero, ne_eq, not_true_eq_false, if_false]
  · rw [if_pos hzero, useEndpoint]
    simp only [emit, ne_eq, hzero, not_false_eq_true, if_true]

theorem useEndpoint_fails (endpoint : Endpoint) (ec : Bytes) (hs : f.stopping = false) (ht : f.timer = none) :
    f.useEndpoint endpoint (some ec) = { f with
      failureReported := f.failureReported || !f.failureReported
      retryDelay := min (f.retryDelay * 2) kMaxRetryDelay
      timer := some (min (f.retryDelay * 2) kMaxRetryDelay)
      trace := f.trace ++ (if !f.failureReported then [.failed (cannotOpen f.cfg ec)] else []) ++
        [.wait (min (f.retryDelay * 2) kMaxRetryDelay)] } := by
  unfold useEndpoint
  cases hr : f.failureReported with
  | false => exact scheduleResolveRetry_eq _ hs ht
  | true =>
    rw [Bool.not_true, if_neg Bool.false_ne_true, List.append_nil]
    refine (scheduleResolveRetry_eq (backOff f) hs ht).trans ?_
    rw [backOff, hr]
    rfl

theorem onResolved_fails (firstAttempt : Bool) (ec : Option Bytes) (results : List Endpoint)
    (openError : Option Bytes) (hs : f.stopping = false) (ht : f.timer = none)
    (hnone : ec ≠ none ∨ results = []) :
    f.onResolved firstAttempt ec results openError = { f with
      resolveAttempts := (f.resolveAttempts + 1) % 2 ^ 64
      failureReported := f.failureReported || firstAttempt
      retryDelay := if firstAttempt then f.retryDelay else min (f.retryDelay * 2) kMaxRetryDelay
      timer := some (if firstAttempt then f.retryDelay else min (f.retryDelay * 2) kMaxRetryDelay)
      trace := f.trace ++ (if firstAttempt then [.failed (cannotResolve f.cfg ec)] else []) ++
        [.wait (if firstAttempt then f.retryDelay else min (f.retryDelay * 2) kMaxRetryDelay)] } := by
  have hfall : f.onResolved firstAttempt ec results openError =
      scheduleResolveRetry (if firstAttempt then
        emit { f with resolveAttempts := (f.resolveAttempts + 1) % 2 ^ 64, failureReported := true }
        (.failed (cannotResolve f.cfg ec))
      else backOff { f with resolveAttempts := (f.resolveAttempts + 1) % 2 ^ 64 }) := by
    unfold onResolved
    dsimp only
    rw [hs, if_neg Bool.false_ne_true]
    cases ec with
    | some ec => rfl
    | none =>
      rw [hnone.resolve_left fun h => h rfl]
  rw [hfall]
  cases firstAttempt with
  | false =>
    simp only [Bool.false_eq_true, if_false, List.append_nil, Bool.or_false]
    exact scheduleResolveRetry_eq (backOff { f with resolveAttempts := (f.resolveAttempts + 1) % 2 ^ 64 }) hs ht
  | true =>
    rw [if_pos rfl, scheduleResolveRetry_eq (emit { f with
      resolveAttempts := (f.resolveAttempts + 1) % 2 ^ 64, failureReported :=
      true } (.failed (cannotResolve f.cfg ec))) hs ht, Bool.or_true]
    rfl

theorem doForward_fate (rest : List Handler) (msg : SyslogMessage) (sendError : Option Bytes) :
    ∃ dropped more, doForward { f with queue := rest } msg sendError =
      { f with queue := rest, droppedUnresolved := dropped, trace := f.trace ++ more } ∧
      Fate f msg dropped more := by
  unfold doForward
  by_cases hoff : f.cfg.enabled = false
  · rw [if_pos hoff]
    exact ⟨_, [], by rw [List.append_nil], .ignored hoff⟩
  rw [if_neg hoff]
  by_cases hmiss : facilityMatches f.cfg.facilities f.cfg.excludedFacilities msg.facility = false
  · rw [if_pos hmiss]
    exact ⟨_, _, rfl, .filtered hmiss⟩
  have hm := Bool.eq_true_of_not_eq_false hmiss
  rw [if_neg hmiss]
  by_cases hr : f.resolved = false
  · rw [if_pos hr]
    exact ⟨_, _, rfl, .counted hm hr⟩
  rw [if_neg hr]
  cases sendError with
  | none => exact ⟨_, _, rfl, .sent hm (Bool.eq_true_of_not_eq_false hr) []⟩
  | some ec =>
    refine ⟨_, _, ?_, .sent hm (Bool.eq_true_of_not_eq_false hr) [cannotSend f.cfg ec]⟩
    exact congrArg (fun trace => ({ f with queue := rest, trace := trace } : Forwarder))
      (List.append_assoc _ _ _)

end Functions

/-- Nothing else is outstanding while a completion is handled. -/
theorem alone (f : Forwarder) (h : Handler) (rest : List Handler) (hq : f.queue = h :: rest)
    (hh : h.completes = true) (hone : f.outstanding ≤ 1) : f.lookups = [] ∧ f.timer = none ∧
    rest.countP Handler.completes = 0 := by
  rw [outstanding, hq, List.countP_cons_of_pos hh] at hone
  refine ⟨List.eq_nil_of_length_eq_zero (by omega), ?_, by omega⟩
  cases ht : f.timer with
  | none => rfl
  | some d =>
    rw [ht, Option.isSome_some, Bool.toNat_true] at hone
    omega

theorem handle_change (f : Forwarder) (openError sendError : Option Bytes) (h : Handler) (rest : List Handler)
    (hq : f.queue = h :: rest) (hone : f.outstanding ≤ 1) :
    Change f [] (Forwarder.handle { f with queue := rest } openError sendError h) := by
  cases h with
  | resolved first ec results =>
    obtain ⟨-, ht, -⟩ := alone f _ rest hq rfl hone
    by_cases hstop : f.stopping = true
    · have hlate : handle { f with queue := rest } openError sendError (.resolved first ec results) =
          { f with queue := rest, resolveAttempts := (f.resolveAttempts + 1) % 2 ^ 64 } := by
        rw [handle]
        unfold onResolved
        exact if_pos hstop
      rw [hlate]
      exact .skips _ rest hq rfl _
    · have hs : f.stopping = false := Bool.eq_false_of_not_eq_true hstop
      by_cases hnone : ec ≠ none ∨ results = []
      · rw [handle, onResolved_fails { f with queue := rest } first ec results openError hs ht hnone]
        refine .fails first ec results rest hq hs _ first (fun h => .inl h) _ _ ?_
        cases first with
        | false => exact .inr rfl
        | true => exact .inl rfl
      · push Not at hnone
        obtain ⟨hec, hresults⟩ := hnone
        obtain ⟨endpoint, others, rfl⟩ := List.exists_cons_of_ne_nil hresults
        have huse : handle { f with queue := rest } openError sendError
            (.resolved first ec (endpoint :: others)) =
              useEndpoint { f with queue := rest, resolveAttempts := (f.resolveAttempts + 1) % 2 ^ 64 }
            endpoint openError := by
          rw [handle, hec]
          unfold onResolved
          exact if_neg hstop
        rw [huse]
        cases openError with
        | none =>
          obtain ⟨line, hadopts⟩ := useEndpoint_adopts
            { f with queue := rest, resolveAttempts := (f.resolveAttempts + 1) % 2 ^ 64 } endpoint
          rw [hadopts]
          exact .adopts first ec (endpoint :: others) rest hq hs _ endpoint line
        | some message =>
          rw [useEndpoint_fails { f with
            queue := rest, resolveAttempts := (f.resolveAttempts + 1) % 2 ^ 64 } endpoint message hs ht]
          refine .fails first ec (endpoint :: others) rest hq hs _ (!f.failureReported)
            (fun h => .inr ?_) _ _ (.inr rfl)
          exact (Bool.not_eq_true' _).mp h
  | retry cancelled =>
    by_cases hskip : (cancelled || f.stopping) = true
    · have hdrop : handle { f with queue := rest } openError sendError (.retry cancelled) =
          { f with queue := rest } := by
        rw [handle]
        exact if_pos hskip
      rw [hdrop]
      exact .skips _ rest hq rfl f.resolveAttempts
    · have hstart : handle { f with queue := rest } openError sendError (.retry cancelled) =
          startResolve { f with queue := rest } false := by
        rw [handle]
        exact if_neg hskip
      have hs : f.stopping = false := (Bool.or_eq_false_iff.mp (Bool.not_eq_true _ ▸ hskip)).2
      rw [hstart]
      exact .retries cancelled rest hq hs
  | forward msg =>
    obtain ⟨dropped, more, hdone, hfate⟩ := doForward_fate f rest msg sendError
    rw [handle, hdone]
    exact .forwards msg rest hq dropped more hfate
  | stop =>
    have hstop : handle { f with queue := rest } openError sendError .stop = { f with
        queue := rest ++ if f.timer.isSome then [.retry true] else [], timer := none, stopping := true
        trace := f.trace ++ [.stopped] } := by
      rw [handle, onStop, cancelTimer]
      cases ht : f.timer with
      | none =>
        rw [Option.isSome_none, if_neg Bool.false_ne_true, List.append_nil]
        rfl
      | some delay => rfl
    rw [hstop]
    exact .stops rest hq

theorem step_change (f f' : Forwarder) (a : Action) (hone : f.outstanding ≤ 1) (h : step f a = some f') :
    Change f a.message.toList f' := by
  cases a with
  | forward msg =>
    cases h
    exact .posts (.forward msg) rfl
  | stop =>
    cases h
    exact .posts .stop rfl
  | lookupReturns i ec results =>
    obtain ⟨first, hi, rfl⟩ := Option.map_eq_some_iff.mp h
    have hlen : f.lookups.length ≤ 1 := by
      rw [outstanding] at hone
      omega
    obtain ⟨hlt, hget⟩ := List.getElem?_eq_some_iff.mp hi
    have hl : f.lookups = [first] := by
      obtain ⟨b, hb⟩ := List.length_eq_one_iff.mp (show f.lookups.length = 1 by omega)
      rw [hb]
      rw [hb, show i = 0 by omega] at hi
      exact congrArg (fun b => [b]) (Option.some.inj hi)
    have hrest : f.lookups.eraseIdx i = [] := by
      rw [hl, show i = 0 by omega]
      rfl
    rw [hrest]
    exact .returns first ec results hl
  | timerExpires =>
    obtain ⟨delay, ht, rfl⟩ := Option.map_eq_some_iff.mp h
    exact .expires (by rw [ht]; rfl)
  | run openError sendError =>
    cases hq : f.queue with
    | nil =>
      rw [step, hq] at h
      cases h
    | cons head rest =>
      rw [step, hq] at h
      cases h
      exact handle_change f openError sendError head rest hq hone

/-! ## What holds of every run -/

section Invariants

variable {posted : List SyslogMessage}

def Event.adoption : Event → Option Endpoint
  | .adopted endpoint => some endpoint
  | _ => none

def Event.dropped : Event → Option ℕ
  | .announced dropped _ => some dropped
  | _ => none

def Event.message : Event → Option SyslogMessage
  | .filtered msg | .counted msg | .sent msg _ _ => some msg
  | _ => none

def Event.isFailure : Event → Bool
  | .failed _ => true
  | _ => false

def Event.isCounted : Event → Bool
  | .counted _ => true
  | _ => false

def adoptions (trace : List Event) : List Endpoint := trace.filterMap Event.adoption

def announced (trace : List Event) : ℕ := (trace.filterMap Event.dropped).sum

def failures (trace : List Event) : ℕ := trace.countP Event.isFailure

def counted (trace : List Event) : ℕ := trace.countP Event.isCounted

section Append

variable (trace more : List Event)

@[simp] theorem adoptions_append : adoptions (trace ++ more) = adoptions trace ++ adoptions more :=
  List.filterMap_append

@[simp] theorem announced_append : announced (trace ++ more) = announced trace + announced more := by
  rw [announced, List.filterMap_append, List.sum_append]
  rfl

@[simp] theorem failures_append : failures (trace ++ more) = failures trace + failures more :=
  List.countP_append

@[simp] theorem counted_append : counted (trace ++ more) = counted trace + counted more := List.countP_append

end Append

/-- What becomes of a message starts nothing, adopts nothing and reports no failure and no drops. -/
theorem Fate.quiet {f : Forwarder} {msg : SyslogMessage} {dropped : ℕ} {more : List Event}
    (h : Fate f msg dropped more) :
    ∀ e ∈ more, e.starts = false ∧ e.adoption = none ∧ e.dropped = none ∧ e.isFailure = false := by
  cases h with
  | ignored => simp
  | filtered => simp [Event.starts, Event.adoption, Event.dropped, Event.isFailure]
  | counted => simp [Event.starts, Event.adoption, Event.dropped, Event.isFailure]
  | sent hm hr lines => simp [Event.starts, Event.adoption, Event.dropped, Event.isFailure]

/-! ### One lookup or wait -/

structure Single (f : Forwarder) : Prop where
  one : f.outstanding ≤ 1
  settled : f.resolved = true → f.outstanding = 0

theorem Single.unresolved {f : Forwarder} (h : Single f) (head : Handler) (rest : List Handler)
    (hq : f.queue = head :: rest) (hhead : head.completes = true) : f.resolved = false := by
  refine Bool.eq_false_of_not_eq_true fun hr => ?_
  have hzero := h.settled hr
  rw [outstanding, hq, List.countP_cons_of_pos hhead] at hzero
  omega

/-- An action that starts something has ended something. -/
theorem outstanding_change (f f' : Forwarder) (hone : f.outstanding ≤ 1) (hc : Change f posted f') :
    f'.outstanding ≤ f.outstanding := by
  cases hc with
  | posts head hhead =>
    unfold outstanding
    dsimp only
    rw [List.countP_append, List.countP_singleton, hhead, if_neg Bool.false_ne_true]
    exact Nat.le_refl _
  | returns first ec results hl =>
    unfold outstanding
    dsimp only
    rw [hl, List.countP_append, List.countP_singleton, Handler.completes, if_pos rfl]
    simp only [List.length_nil, List.length_singleton]
    omega
  | expires ht =>
    unfold outstanding
    dsimp only
    rw [ht, List.countP_append, List.countP_singleton, Handler.completes, if_pos rfl, Option.isSome_none,
      Bool.toNat_false, Bool.toNat_true]
    omega
  | skips head rest hq hhead attempts =>
    unfold outstanding
    dsimp only
    rw [hq, List.countP_cons_of_pos hhead]
    omega
  | adopts first ec results rest hq hs attempts endpoint line =>
    unfold outstanding
    dsimp only
    rw [hq, List.countP_cons_of_pos rfl]
    omega
  | fails first ec results rest hq hs attempts reports hr line delay hd =>
    obtain ⟨hl, ht, hrest⟩ := alone f _ rest hq rfl hone
    unfold outstanding
    dsimp only
    rw [hq, List.countP_cons_of_pos rfl, hl, ht, hrest]
    exact Nat.le_refl 1
  | retries cancelled rest hq hs =>
    unfold outstanding
    dsimp only
    rw [hq, List.countP_cons_of_pos rfl, List.length_append, List.length_singleton]
    omega
  | forwards msg rest hq dropped more hf =>
    unfold outstanding
    dsimp only
    rw [hq, List.countP_cons_of_neg Bool.false_ne_true]
  | stops rest hq =>
    unfold outstanding
    dsimp only
    rw [hq, List.countP_cons_of_neg Bool.false_ne_true, List.countP_append]
    cases f.timer.isSome with
    | false => exact Nat.le_refl _
    | true =>
      rw [if_pos rfl, List.countP_singleton, Handler.completes, if_pos rfl, Option.isSome_none,
        Bool.toNat_false, Bool.toNat_true]
      omega

theorem single_change (f f' : Forwarder) (h : Single f) (hc : Change f posted f') : Single f' := by
  have hle := outstanding_change f f' h.one hc
  refine ⟨hle.trans h.one, fun hr => ?_⟩
  by_cases hold : f.resolved = true
  · exact Nat.le_zero.mp (hle.trans_eq (h.settled hold))
  · cases hc with
    | adopts first ec results rest hq hs attempts endpoint line =>
      obtain ⟨hl, ht, hrest⟩ := alone f _ rest hq rfl h.one
      unfold outstanding
      dsimp only
      rw [hl, ht, hrest]
      rfl
    | _ => exact absurd hr hold

/-! ### Failures are reported once -/

structure Reported (f : Forwarder) : Prop where
  once : failures f.trace = f.failureReported.toNat
  first : (true ∈ f.lookups ∨ ∃ ec results, .resolved true ec results ∈ f.queue) → f.failureReported = false

/-- An action that reports no failure and starts no first lookup. -/
theorem Reported.quiet {f f' : Forwarder} (h : Reported f) (more : List Event)
    (htrace : f'.trace = f.trace ++ more) (hmore : failures more = 0)
    (hflag : f'.failureReported = f.failureReported) (hlookups : true ∈ f'.lookups → true ∈ f.lookups)
    (hqueue : ∀ ec results, .resolved true ec results ∈ f'.queue → .resolved true ec results ∈ f.queue) :
    Reported f' := by
  refine ⟨?_, ?_⟩
  · rw [htrace, failures_append, hmore, hflag]
    exact h.once
  · rw [hflag]
    rintro (hfirst | ⟨ec, results, hmem⟩)
    · exact h.first (.inl (hlookups hfirst))
    · exact h.first (.inr ⟨ec, results, hqueue ec results hmem⟩)

theorem reported_change (f f' : Forwarder) (hone : f.outstanding ≤ 1) (h : Reported f)
    (hc : Change f posted f') : Reported f' := by
  cases hc with
  | posts head hhead =>
    refine h.quiet [] (List.append_nil _).symm rfl rfl id fun ec results hmem => ?_
    refine (List.mem_append.mp hmem).resolve_right fun hnew => ?_
    rw [← List.mem_singleton.mp hnew] at hhead
    cases hhead
  | returns first ec results hl =>
    refine ⟨h.once, fun hfirst => h.first ?_⟩
    rcases hfirst with hnil | ⟨ec', results', hmem⟩
    · cases hnil
    · rcases List.mem_append.mp hmem with hold | hnew
      · exact .inr ⟨ec', results', hold⟩
      · cases List.mem_singleton.mp hnew
        exact .inl (by rw [hl]; exact List.mem_singleton.mpr rfl)
  | expires ht =>
    refine h.quiet [] (List.append_nil _).symm rfl rfl id fun ec results hmem => ?_
    refine (List.mem_append.mp hmem).resolve_right fun hnew => ?_
    cases List.mem_singleton.mp hnew
  | skips head rest hq hhead attempts =>
    exact h.quiet [] (List.append_nil _).symm rfl rfl id fun ec results hmem =>
      by rw [hq]; exact List.mem_cons_of_mem _ hmem
  | adopts first ec results rest hq hs attempts endpoint line =>
    refine h.quiet _ (List.append_assoc _ _ _) ?_ rfl id fun ec results hmem =>
      by rw [hq]; exact List.mem_cons_of_mem _ hmem
    rw [failures_append]
    split_ifs
    · rfl
    · rfl
  | fails first ec results rest hq hs attempts reports hr line delay hd =>
    obtain ⟨hl, -, hrest⟩ := alone f _ rest hq rfl hone
    constructor
    · rw [failures_append, failures_append, h.once]
      cases reports with
      | false => rw [Bool.or_false]; rfl
      | true =>
        have hnever : f.failureReported = false := by
          rcases hr rfl with rfl | hnever
          · exact h.first (.inr ⟨ec, results, by rw [hq]; exact List.mem_cons_self⟩)
          · exact hnever
        rw [hnever]
        rfl
    · rintro (hfirst | ⟨ec', results', hmem⟩)
      · rw [hl] at hfirst
        cases hfirst
      · exact absurd rfl (List.countP_eq_zero.mp hrest _ hmem)
  | retries cancelled rest hq hs =>
    refine h.quiet _ rfl rfl rfl (fun hmem => ?_) fun ec results hmem =>
      by rw [hq]; exact List.mem_cons_of_mem _ hmem
    exact (List.mem_append.mp hmem).resolve_right fun hnew =>
      Bool.false_ne_true (List.mem_singleton.mp hnew).symm
  | forwards msg rest hq dropped more hf =>
    have hquiet : failures more = 0 := List.countP_eq_zero.mpr fun e he =>
      ne_true_of_eq_false (hf.quiet e he).2.2.2
    exact h.quiet more rfl hquiet rfl id fun ec results hmem => by rw [hq]; exact List.mem_cons_of_mem _ hmem
  | stops rest hq =>
    refine h.quiet _ rfl rfl rfl id fun ec results hmem => ?_
    rcases List.mem_append.mp hmem with hold | hnew
    · rw [hq]
      exact List.mem_cons_of_mem _ hold
    · split_ifs at hnew
      · cases List.mem_singleton.mp hnew
      · cases hnew

/-! ### The endpoint and the drops -/

structure Settled (f : Forwarder) : Prop where
  adopted : adoptions f.trace = if f.resolved then [f.endpoint] else []
  wrapped : (announced f.trace + f.droppedUnresolved) % 2 ^ 64 = counted f.trace % 2 ^ 64
  exactly : counted f.trace < 2 ^ 64 → announced f.trace + f.droppedUnresolved = counted f.trace

/-- An action that neither adopts nor announces nor counts. -/
theorem Settled.quiet {f f' : Forwarder} (h : Settled f) (more : List Event)
    (htrace : f'.trace = f.trace ++ more) (hr : f'.resolved = f.resolved) (he : f'.endpoint = f.endpoint)
    (hd : f'.droppedUnresolved = f.droppedUnresolved)
    (hmore : ∀ e ∈ more, e.adoption = none ∧ e.dropped = none ∧ e.isCounted = false) : Settled f' := by
  have hadopt : adoptions more = [] := List.filterMap_eq_nil_iff.mpr fun e hm => (hmore e hm).1
  have hannounce : announced more = 0 := by
    rw [announced, List.filterMap_eq_nil_iff.mpr fun e hm => (hmore e hm).2.1]
    rfl
  have hcount : counted more = 0 := List.countP_eq_zero.mpr fun e hm => ne_true_of_eq_false (hmore e hm).2.2
  refine ⟨?_, ?_, ?_⟩
  · rw [htrace, adoptions_append, hadopt, List.append_nil, hr, he]
    exact h.adopted
  · rw [htrace, announced_append, hannounce, counted_append, hcount, hd]
    exact h.wrapped
  · rw [htrace, announced_append, hannounce, counted_append, hcount, hd]
    exact h.exactly

theorem settled_fate (f : Forwarder) (msg : SyslogMessage) (dropped : ℕ) (more : List Event) (h : Settled f)
    (hf : Fate f msg dropped more) (rest : List Handler) :
    Settled { f with queue := rest, droppedUnresolved := dropped, trace := f.trace ++ more } := by
  have hwrapped := h.wrapped
  have hexactly := h.exactly
  cases hf with
  | ignored he => exact h.quiet [] rfl rfl rfl rfl (by simp)
  | filtered hm =>
    exact h.quiet [.filtered msg] rfl rfl rfl rfl (by simp [Event.adoption, Event.dropped, Event.isCounted])
  | sent hm hr lines =>
    exact h.quiet _ rfl rfl rfl rfl (by simp [Event.adoption, Event.dropped, Event.isCounted])
  | counted hm hr =>
    have hone : counted [.counted msg] = 1 := rfl
    have hzero : announced [.counted msg] = 0 := rfl
    refine ⟨?_, ?_, fun hsmall => ?_⟩
    · rw [adoptions_append]
      exact (List.append_nil _).trans h.adopted
    · rw [announced_append, counted_append, hone, hzero]
      dsimp only
      omega
    · rw [counted_append, hone] at hsmall
      have hold := hexactly (by omega)
      rw [announced_append, counted_append, hone, hzero]
      dsimp only
      omega

theorem settled_change (f f' : Forwarder) (hsingle : Single f) (h : Settled f) (hc : Change f posted f') :
    Settled f' := by
  cases hc with
  | posts head hhead => exact h.quiet [] (List.append_nil _).symm rfl rfl rfl (by simp)
  | returns first ec results hl => exact h.quiet [] (List.append_nil _).symm rfl rfl rfl (by simp)
  | expires ht => exact h.quiet [] (List.append_nil _).symm rfl rfl rfl (by simp)
  | skips head rest hq hhead attempts => exact h.quiet [] (List.append_nil _).symm rfl rfl rfl (by simp)
  | fails first ec results rest hq hs attempts reports hr line delay hd =>
    refine h.quiet _ (List.append_assoc _ _ _) rfl rfl rfl fun e he => ?_
    rcases List.mem_append.mp he with hline | hwait
    · split_ifs at hline
      · rw [List.mem_singleton.mp hline]
        exact ⟨rfl, rfl, rfl⟩
      · cases hline
    · rw [List.mem_singleton.mp hwait]
      exact ⟨rfl, rfl, rfl⟩
  | retries cancelled rest hq hs =>
    exact h.quiet _ rfl rfl rfl rfl (by simp [Event.adoption, Event.dropped, Event.isCounted])
  | stops rest hq => exact h.quiet _ rfl rfl rfl rfl (by simp [Event.adoption, Event.dropped, Event.isCounted])
  | forwards msg rest hq dropped more hf => exact settled_fate f msg dropped more h hf rest
  | adopts first ec results rest hq hs attempts endpoint line =>
    have hnever := hsingle.unresolved _ rest hq rfl
    have hadopt : adoptions f.trace = [] := by rw [h.adopted, hnever]; rfl
    have hlast : adoptions (if f.droppedUnresolved ≠ 0 then [.announced f.droppedUnresolved line] else []) =
        [] ∧
        counted (if f.droppedUnresolved ≠ 0 then [.announced f.droppedUnresolved line] else []) = 0 ∧
        announced (if f.droppedUnresolved ≠ 0 then [.announced f.droppedUnresolved line] else []) =
          f.droppedUnresolved := by
      by_cases hzero : f.droppedUnresolved = 0
      · rw [if_neg (not_not.mpr hzero), hzero]
        exact ⟨rfl, rfl, rfl⟩
      · rw [if_pos hzero]
        exact ⟨rfl, rfl, Nat.add_zero _⟩
    have hone : counted [.adopted endpoint] = 0 := rfl
    have hzero : announced [.adopted endpoint] = 0 := rfl
    refine ⟨?_, ?_, fun hsmall => ?_⟩
    · rw [adoptions_append, adoptions_append, hadopt, hlast.1, if_pos rfl]
      rfl
    · rw [announced_append, announced_append, counted_append, counted_append, hlast.2.1, hlast.2.2, hone, hzero]
      exact h.wrapped
    · rw [counted_append, counted_append, hlast.2.1, hone] at hsmall
      rw [announced_append, announced_append, counted_append, counted_append, hlast.2.1, hlast.2.2, hone, hzero]
      exact h.exactly hsmall

/-! ### What comes later -/

/-- The delay has grown within its bounds, and a forwarder that had settled or stopped has started nothing
more. -/
structure Later (f f' : Forwarder) : Prop where
  trace : ∃ more, f'.trace = f.trace ++ more ∧ (f.resolved = true ∨ f.stopping = true → ∀ e ∈ more,
    e.starts = false)
  resolved : f.resolved = true → f'.resolved = true ∧ f'.endpoint = f.endpoint
  stopping : f.stopping = true → f'.stopping = true
  delay : f.retryDelay ≤ kMaxRetryDelay → f.retryDelay ≤ f'.retryDelay ∧ f'.retryDelay ≤ kMaxRetryDelay
  cfg : f'.cfg = f.cfg

theorem Later.refl (f : Forwarder) : Later f f :=
  ⟨⟨[], (List.append_nil _).symm, fun _ e he => by cases he⟩, fun h => ⟨h, rfl⟩, id,
    fun h => ⟨Nat.le_refl _, h⟩, rfl⟩

theorem Later.trans (f f' f'' : Forwarder) (h : Later f f') (h' : Later f' f'') : Later f f'' where
  trace := by
    obtain ⟨more, htrace, hmore⟩ := h.trace
    obtain ⟨more', htrace', hmore'⟩ := h'.trace
    refine ⟨more ++ more', by rw [htrace', htrace, List.append_assoc], fun hend e he => ?_⟩
    rcases List.mem_append.mp he with he | he
    · exact hmore hend e he
    · exact hmore' (hend.imp (fun hr => (h.resolved hr).1) h.stopping) e he
  resolved hr := ⟨(h'.resolved (h.resolved hr).1).1, (h'.resolved (h.resolved hr).1).2.trans (h.resolved hr).2⟩
  stopping := h'.stopping ∘ h.stopping
  delay hle := ⟨(h.delay hle).1.trans (h'.delay (h.delay hle).2).1, (h'.delay (h.delay hle).2).2⟩
  cfg := h'.cfg.trans h.cfg

theorem later_change (f f' : Forwarder) (hsingle : Single f) (hc : Change f posted f') : Later f f' := by
  have hquiet : ∃ more, f.trace = f.trace ++ more ∧ (f.resolved = true ∨ f.stopping = true → ∀ e ∈ more,
      e.starts = false) :=
    (Later.refl f).trace
  cases hc with
  | posts head hhead => exact ⟨hquiet, fun h => ⟨h, rfl⟩, id, fun h => ⟨Nat.le_refl _, h⟩, rfl⟩
  | returns first ec results hl => exact ⟨hquiet, fun h => ⟨h, rfl⟩, id, fun h => ⟨Nat.le_refl _, h⟩, rfl⟩
  | expires ht => exact ⟨hquiet, fun h => ⟨h, rfl⟩, id, fun h => ⟨Nat.le_refl _, h⟩, rfl⟩
  | skips head rest hq hhead attempts => exact ⟨hquiet, fun h => ⟨h, rfl⟩, id, fun h => ⟨Nat.le_refl _, h⟩, rfl⟩
  | adopts first ec results rest hq hs attempts endpoint line =>
    have hnever := hsingle.unresolved _ rest hq rfl
    refine ⟨⟨_, List.append_assoc _ _ _, fun hend => ?_⟩, fun hr => ?_, id, fun h => ⟨Nat.le_refl _, h⟩, rfl⟩
    · rw [hnever, hs] at hend
      exact absurd hend (by simp)
    · rw [hnever] at hr
      cases hr
  | fails first ec results rest hq hs attempts reports hr line delay hd =>
    have hnever := hsingle.unresolved _ rest hq rfl
    refine ⟨⟨_, List.append_assoc _ _ _, fun hend => ?_⟩, fun hr => ⟨hr, rfl⟩, id, fun hle => ?_, rfl⟩
    · rw [hnever, hs] at hend
      exact absurd hend (by simp)
    · dsimp only
      omega
  | retries cancelled rest hq hs =>
    have hnever := hsingle.unresolved _ rest hq rfl
    refine ⟨⟨_, rfl, fun hend => ?_⟩, fun hr => ⟨hr, rfl⟩, id, fun h => ⟨Nat.le_refl _, h⟩, rfl⟩
    rw [hnever, hs] at hend
    exact absurd hend (by simp)
  | forwards msg rest hq dropped more hf =>
    exact ⟨⟨more, rfl, fun _ e he => (hf.quiet e he).1⟩, fun hr => ⟨hr, rfl⟩, id,
      fun h => ⟨Nat.le_refl _, h⟩, rfl⟩
  | stops rest hq =>
    refine ⟨⟨_, rfl, fun _ e he => ?_⟩, fun hr => ⟨hr, rfl⟩, fun _ => rfl, fun h => ⟨Nat.le_refl _, h⟩, rfl⟩
    rw [List.mem_singleton.mp he]
    rfl

/-! ### Every message has its fate -/

def passes (cfg : ForwardingConfig) (msg : SyslogMessage) : Bool :=
  facilityMatches cfg.facilities cfg.excludedFacilities msg.facility

/-- What is done with a message is right for it after the events so far. -/
def Judged (cfg : ForwardingConfig) (pre : List Event) : Event → Prop
  | .filtered msg => passes cfg msg = false
  | .counted msg => passes cfg msg = true ∧ adoptions pre = []
  | .sent msg payload endpoint =>
    passes cfg msg = true ∧ adoptions pre = [endpoint] ∧ payload = truncateIfNeeded msg.raw cfg.maxMessageSize
  | _ => True

def handled (trace : List Event) : List SyslogMessage := trace.filterMap Event.message

def queued (queue : List Handler) : List SyslogMessage := queue.filterMap Handler.message

theorem judged_of_noMessage (cfg : ForwardingConfig) (pre : List Event) (e : Event) (h : e.message = none) :
    Judged cfg pre e := by
  cases e with
  | filtered msg => cases h
  | counted msg => cases h
  | sent msg payload endpoint => cases h
  | _ => trivial

theorem judged_change (f f' : Forwarder) (hsettled : Settled f) (h : EachAfter (Judged f.cfg) f.trace)
    (hc : Change f posted f') :
    EachAfter (Judged f.cfg) f'.trace := by
  have hquiet : ∀ more : List Event, (∀ e ∈ more, e.message = none) →
      EachAfter (Judged f.cfg) (f.trace ++ more) := fun more hmore =>
    eachAfter_append _ _ _ h fun pre e post hsplit =>
      judged_of_noMessage _ _ _ (hmore e (by rw [hsplit]; exact List.mem_append_right _ List.mem_cons_self))
  cases hc with
  | posts head hhead => exact h
  | returns first ec results hl => exact h
  | expires ht => exact h
  | skips head rest hq hhead attempts => exact h
  | adopts first ec results rest hq hs attempts endpoint line =>
    dsimp only
    rw [List.append_assoc]
    refine hquiet _ fun e he => ?_
    rcases List.mem_append.mp he with he | he
    · rw [List.mem_singleton.mp he]
      rfl
    · split_ifs at he
      · rw [List.mem_singleton.mp he]
        rfl
      · cases he
  | fails first ec results rest hq hs attempts reports hr line delay hd =>
    dsimp only
    rw [List.append_assoc]
    refine hquiet _ fun e he => ?_
    rcases List.mem_append.mp he with he | he
    · split_ifs at he
      · rw [List.mem_singleton.mp he]
        rfl
      · cases he
    · rw [List.mem_singleton.mp he]
      rfl
  | retries cancelled rest hq hs => exact hquiet _ (by simp [Event.message])
  | stops rest hq => exact hquiet _ (by simp [Event.message])
  | forwards msg rest hq dropped more hf =>
    cases hf with
    | ignored he => exact hquiet [] (by simp)
    | filtered hm => exact eachAfter_snoc _ _ _ h hm
    | counted hm hr =>
      refine eachAfter_snoc _ _ _ h ⟨hm, ?_⟩
      rw [hsettled.adopted, hr]
      rfl
    | sent hm hr lines =>
      dsimp only
      rw [← List.append_assoc]
      refine eachAfter_append _ _ _ (eachAfter_snoc _ _ _ h ⟨hm, ?_, rfl⟩) fun pre e post hsplit => ?_
      · rw [hsettled.adopted, hr]
        rfl
      · obtain ⟨line, -, hline⟩ := List.mem_map.mp (show e ∈ lines.map Event.notSent by
          rw [hsplit]
          exact List.mem_append_right _ List.mem_cons_self)
        rw [← hline]
        trivial

theorem handled_append (trace more : List Event) :
    handled (trace ++ more) = handled trace ++ handled more := List.filterMap_append

theorem queued_append (queue more : List Handler) : queued (queue ++ more) = queued queue ++ queued more :=
  List.filterMap_append

theorem queued_singleton (head : Handler) : queued [head] = head.message.toList := by
  cases head with
  | _ => rfl

/-- No message is lost or handled twice. -/
theorem messages_change (f f' : Forwarder) (he : f.cfg.enabled = true) (hc : Change f posted f') :
    handled f'.trace ++ queued f'.queue = handled f.trace ++ queued f.queue ++ posted := by
  cases hc with
  | posts head hhead => rw [queued_append, queued_singleton, List.append_assoc]
  | returns first ec results hl => rw [queued_append, queued_singleton, List.append_assoc]; rfl
  | expires ht => rw [queued_append, queued_singleton, List.append_assoc]; rfl
  | skips head rest hq hhead attempts =>
    have hnone : head.message = none := by
      cases head with
      | forward msg => cases hhead
      | _ => rfl
    rw [hq, queued, queued, List.filterMap_cons_none hnone, List.append_nil]
  | adopts first ec results rest hq hs attempts endpoint line =>
    have hlast : handled (if f.droppedUnresolved ≠ 0 then [.announced f.droppedUnresolved line] else []) =
        [] := by
      split_ifs
      · rfl
      · rfl
    rw [hq, handled_append, handled_append, hlast, List.append_nil, List.append_nil]
    exact congrArg (· ++ queued rest) (List.append_nil _)
  | fails first ec results rest hq hs attempts reports hr line delay hd =>
    have hfirst : handled (if reports then [.failed line] else []) = [] := by
      split_ifs
      · rfl
      · rfl
    rw [hq, handled_append, handled_append, hfirst, List.append_nil, List.append_nil]
    exact congrArg (· ++ queued rest) (List.append_nil _)
  | retries cancelled rest hq hs =>
    rw [hq, handled_append, List.append_nil]
    exact congrArg (· ++ queued rest) (List.append_nil _)
  | stops rest hq =>
    have hlast : queued (if f.timer.isSome then [.retry true] else []) = [] := by
      split_ifs
      · rfl
      · rfl
    rw [hq, handled_append, queued_append, hlast, List.append_nil, List.append_nil]
    exact congrArg (· ++ queued rest) (List.append_nil _)
  | forwards msg rest hq dropped more hf =>
    have hmore : handled more = [msg] := by
      cases hf with
      | ignored hoff => exact absurd he (ne_true_of_eq_false hoff)
      | filtered hm => rfl
      | counted hm hr => rfl
      | sent hm hr lines =>
        have hlines : handled (lines.map Event.notSent) = [] := List.filterMap_eq_nil_iff.mpr fun e hmem => by
          obtain ⟨line, -, rfl⟩ := List.mem_map.mp hmem
          rfl
        rw [handled_append, hlines]
        rfl
    rw [hq, handled_append, hmore, List.append_nil, List.append_assoc]
    rfl

end Invariants

/-! ### Runs -/

structure Invariant (cfg : ForwardingConfig) (f : Forwarder) : Prop where
  config : f.cfg = cfg
  single : Single f
  reported : Reported f
  settled : Settled f
  delay : kFirstRetryDelay ≤ f.retryDelay ∧ f.retryDelay ≤ kMaxRetryDelay
  judged : EachAfter (Judged cfg) f.trace

theorem invariant_make (cfg : ForwardingConfig) (literal openError : Option Bytes) :
    Invariant cfg (make cfg literal openError) := by
  have hjudged : ∀ trace : List Event, (∀ e ∈ trace, e.message = none) → EachAfter (Judged cfg) trace :=
    fun trace hnone pre e post h =>
    judged_of_noMessage cfg pre e (hnone e (by rw [h]; exact List.mem_append_right _ List.mem_cons_self))
  have hfirst : ∀ f : Forwarder, f.lookups = [] → f.queue = [] →
      f.failureReported.toNat = failures f.trace → Reported f := by
    intro f hl hq hf
    refine ⟨hf.symm, ?_⟩
    rw [hl, hq]
    rintro (h | ⟨ec, results, h⟩)
    · cases h
    · cases h
  have hone : kFirstRetryDelay ≤ kFirstRetryDelay ∧ kFirstRetryDelay ≤ kMaxRetryDelay := by decide
  have htwo : kFirstRetryDelay ≤ min (kFirstRetryDelay * 2) kMaxRetryDelay ∧
      min (kFirstRetryDelay * 2) kMaxRetryDelay ≤ kMaxRetryDelay := by
    decide
  unfold make
  dsimp only
  by_cases hoff : cfg.enabled = false
  · rw [if_pos hoff]
    exact ⟨rfl, ⟨Nat.zero_le 1, fun _ => rfl⟩, hfirst _ rfl rfl rfl, ⟨rfl, rfl, fun _ => rfl⟩, hone,
      eachAfter_nil _⟩
  · rw [if_neg hoff]
    cases literal with
    | none =>
      refine ⟨rfl, ⟨Nat.le_refl 1, fun h => absurd h Bool.false_ne_true⟩, ⟨rfl, fun _ => rfl⟩,
        ⟨rfl, rfl, fun _ => rfl⟩, hone, hjudged [.lookup true] (by simp [Event.message])⟩
    | some address =>
      cases openError with
      | none =>
        refine ⟨rfl, ⟨Nat.zero_le 1, fun _ => rfl⟩, hfirst _ rfl rfl rfl, ⟨rfl, rfl, fun _ => rfl⟩, hone,
          hjudged [.adopted ⟨address, cfg.port⟩] (by simp [Event.message])⟩
      | some ec =>
        dsimp only
        rw [useEndpoint_fails { cfg := cfg } ⟨address, cfg.port⟩ ec rfl rfl]
        refine ⟨rfl, ⟨Nat.le_refl 1, fun h => absurd h Bool.false_ne_true⟩, hfirst _ rfl rfl rfl,
          ⟨rfl, rfl, fun _ => rfl⟩, htwo, hjudged [.failed (cannotOpen cfg ec),
            .wait 2] (by simp [Event.message])⟩

theorem invariant_step (cfg : ForwardingConfig) (f f' : Forwarder) (a : Action) (h : Invariant cfg f)
    (hstep : step f a = some f') :
    Invariant cfg f' ∧ Later f f' := by
  have hc := step_change f f' a h.single.one hstep
  have hlater := later_change f f' h.single hc
  have hdelay := hlater.delay h.delay.2
  have hjudged := judged_change f f' h.settled (by rw [h.config]; exact h.judged) hc
  rw [h.config] at hjudged
  exact ⟨⟨hlater.cfg.trans h.config, single_change f f' h.single hc,
    reported_change f f' h.single.one h.reported hc, settled_change f f' h.single h.settled hc,
    ⟨h.delay.1.trans hdelay.1, hdelay.2⟩, hjudged⟩, hlater⟩

theorem exec_invariant (cfg : ForwardingConfig) (f f' : Forwarder) (as : List Action) (h : Invariant cfg f)
    (hrun : exec step f as = some f') :
    Invariant cfg f' ∧ Later f f' := by
  refine exec_induct step f (fun _ f' => Invariant cfg f' ∧ Later f f') ⟨h, Later.refl f⟩ ?_ as f' hrun
  intro as g a g' _ ih hstep
  obtain ⟨hg', hlater⟩ := invariant_step cfg g g' a ih.1 hstep
  exact ⟨hg', Later.trans f g g' ih.2 hlater⟩

theorem exec_messages (cfg : ForwardingConfig) (he : cfg.enabled = true) (f f' : Forwarder)
    (as : List Action) (h : Invariant cfg f) (hrun : exec step f as = some f') :
    handled f'.trace ++ queued f'.queue = handled f.trace ++ queued f.queue ++ as.filterMap Action.message := by
  refine exec_induct step f (fun as f' => handled f'.trace ++ queued f'.queue =
    handled f.trace ++ queued f.queue ++ as.filterMap Action.message) (List.append_nil _).symm ?_ as f' hrun
  intro as g a g' hg ih hstep
  have hinv := (exec_invariant cfg f g as h hg).1
  have hc := step_change g g' a hinv.single.one hstep
  have hlast : [a].filterMap Action.message = a.message.toList := by
    cases a with
    | _ => rfl
  rw [messages_change g g' (by rw [hinv.config]; exact he) hc, ih, List.filterMap_append, hlast,
    List.append_assoc]

/-- The laws of a run: the messages that came are those handled and those still queued, each handled as it
should be; the drops are counted and announced; at most one failure is reported; at most one lookup or wait is
outstanding. -/
structure Protocol (cfg : ForwardingConfig) (as : List Action) (f : Forwarder) : Prop where
  messages : as.filterMap Action.message = handled f.trace ++ queued f.queue
  judged : EachAfter (Judged cfg) f.trace
  adopted : adoptions f.trace = if f.resolved then [f.endpoint] else []
  wrapped : (announced f.trace + f.droppedUnresolved) % 2 ^ 64 = counted f.trace % 2 ^ 64
  exactly : counted f.trace < 2 ^ 64 → announced f.trace + f.droppedUnresolved = counted f.trace
  reported : failures f.trace ≤ 1
  outstanding : f.outstanding ≤ 1
  delay : kFirstRetryDelay ≤ f.retryDelay ∧ f.retryDelay ≤ kMaxRetryDelay

/-- Every run of an enabled forwarder, and whatever follows it. -/
theorem run_protocol (cfg : ForwardingConfig) (he : cfg.enabled = true) (literal openError : Option Bytes)
    (as bs : List Action) (f f' : Forwarder) (h : exec step (make cfg literal openError) as = some f)
    (h' : exec step f bs = some f') :
    Protocol cfg as f ∧ Later f f' := by
  have hstart := invariant_make cfg literal openError
  have hinv := (exec_invariant cfg _ f as hstart h).1
  have hmessages := exec_messages cfg he _ f as hstart h
  have hnone : handled (make cfg literal openError).trace ++ queued (make cfg literal openError).queue =
      [] := by
    unfold make
    dsimp only
    rw [if_neg (ne_false_of_eq_true he)]
    cases literal with
    | none => rfl
    | some address =>
      cases openError with
      | none => rfl
      | some ec => rfl
  rw [hnone, List.nil_append] at hmessages
  refine ⟨⟨hmessages.symm, hinv.judged, hinv.settled.adopted, hinv.settled.wrapped, hinv.settled.exactly,
    ?_, hinv.single.one, hinv.delay⟩, (exec_invariant cfg f f' bs hinv h').2⟩
  rw [hinv.reported.once]
  exact Bool.toNat_le _

def named : ForwardingConfig := { enabled := true, host := ascii "collector" }

/-- A message comes before the lookup fails, another one after the retry has found the collector. -/
def recovery : List Action :=
  [.forward {}, .run none none, .lookupReturns 0 (some (ascii "host not found")) [], .run none none,
    .timerExpires, .run none none, .lookupReturns 0 none [⟨ascii "192.0.2.1", 514⟩], .run none none]

theorem run_protocol_recovery : ∃ f f', exec step (make named none none) recovery = some f ∧
    exec step f [.forward {}, .stop, .run none none, .run none none] = some f' ∧ Protocol named recovery f ∧
    Later f f' ∧
    f.resolved = true ∧ f'.stopping = true := by
  refine ⟨_, _, rfl, rfl, ?_, ?_, rfl, rfl⟩
  · exact (run_protocol named rfl none none recovery [] _ _ rfl rfl).1
  · exact (run_protocol named rfl none none recovery [.forward {}, .stop, .run none none,
      .run none none] _ _ rfl rfl).2

/-! ## The width of the count -/

/-- `n` messages before the first lookup has ended. -/
def burst : ℕ → List Action
  | 0 => []
  | n + 1 => burst n ++ [.forward {}, .run none none]

def afterBurst (n : ℕ) : Forwarder where
  cfg := named
  droppedUnresolved := n % 2 ^ 64
  lookups := [true]
  trace := .lookup true :: List.replicate n (.counted {})

theorem burst_run (n : ℕ) : exec step (make named none none) (burst n) = some (afterBurst n) := by
  induction n with
  | zero => rfl
  | succ n ih =>
    have hlast : exec step (afterBurst n) [.forward {}, .run none none] = some { afterBurst n with
        droppedUnresolved := (n % 2 ^ 64 + 1) % 2 ^ 64, trace :=
        (.lookup true :: List.replicate n (.counted {})) ++ [.counted {}] } := rfl
    rw [burst, exec_append, ih, Option.bind_some, hlast, Nat.mod_add_mod, List.cons_append,
      ← List.replicate_succ']
    rfl

theorem counted_afterBurst (n : ℕ) : counted (afterBurst n).trace = n := by
  have hcons : counted (afterBurst n).trace = counted (List.replicate n (.counted {})) :=
    List.countP_cons_of_neg Bool.false_ne_true
  rw [hcons, counted, List.countP_replicate]
  exact if_pos rfl

theorem announced_afterBurst (n : ℕ) : announced (afterBurst n).trace = 0 := by
  have hnone : (afterBurst n).trace.filterMap Event.dropped = [] := by
    refine List.filterMap_eq_nil_iff.mpr fun e he => ?_
    rcases List.mem_cons.mp he with rfl | he
    · rfl
    · rw [List.eq_of_mem_replicate he]
      rfl
  rw [announced, hnone]
  rfl

/-- After `2 ^ 64` messages nothing is left to announce. -/
theorem drops_wrap : ¬ ∀ cfg literal openError as f, cfg.enabled = true →
    exec step (make cfg literal openError) as = some f →
    announced f.trace + f.droppedUnresolved = counted f.trace := by
  intro h
  have hmod : ∀ n : ℕ, n % 2 ^ 64 = n := by
    intro n
    have hn := h named none none (burst n) (afterBurst n) rfl (burst_run n)
    rw [announced_afterBurst, counted_afterBurst, Nat.zero_add] at hn
    exact hn
  have hwrap := hmod (2 ^ 64)
  norm_num at hwrap

end Forwarder

end Minilog.Server
