import Minilog.Lib.Effect
import Minilog.Output.Escape
import Minilog.Output.Jsonl
import Minilog.Server.Ownership

/-! One output sink (`output/log_file.cpp`, `output/sink_recovery.hpp`): writing, rotating, failing and
reopening its files.

The two files of a sink are handled by the same statements, written once here with a `Chain` argument;
slot 0 of a chain is the active file and slot `n` its generation `n`. Everything that can go wrong is an
input: a `Plan` says how each call of one handler ends. Files live under their path; `trace` records what
happened to them and is not part of the program. -/
namespace Minilog.Output
open Lib
open Minilog.Parser Minilog.Server
set_option autoImplicit false

inductive Chain where
  | text
  | jsonl
deriving DecidableEq

/-- The calls of a handler that depend on the outside. `openStream` and `fileSize` come before a rotation
and at its end; `probe` looks for the highest generation, `probeOld` before a removal and `probeShift`
before a rename, of generation 0 for the active file. -/
inductive Call where
  | report
  | openStream (rotating : Bool) (c : Chain)
  | fileSize (rotating : Bool) (c : Chain)
  | probe (c : Chain) (n : ℕ)
  | probeOld (c : Chain) (n : ℕ)
  | remove (c : Chain) (n : ℕ)
  | probeShift (c : Chain) (n : ℕ)
  | rename (c : Chain) (n : ℕ)
  | timestamp
  | format (c : Chain)
  | write (c : Chain)
deriving DecidableEq

inductive Outcome where
  | ok
  | fails (message : Bytes)
  | throws (what : Bytes)
  | killed
deriving DecidableEq

/-- How the calls of one handler end, the time it runs at in nanoseconds, and how many bytes of a line reach its
file when the write does not succeed: the stream still holds the line then, and writes it again, or a first part
of it, when it is closed. -/
structure Plan where
  outcome : Call → Outcome
  now : ℕ
  written : Chain → ℕ
  rewritten : Chain → ℕ := fun _ => 0

/-- What a write that does not succeed leaves of its line. A process that is killed closes nothing. -/
def Plan.torn (plan : Plan) (c : Chain) (line : Bytes) : Bytes :=
  line.take (plan.written c) ++ if plan.outcome (.write c) = .killed then [] else line.take (plan.rewritten c)

theorem Plan.torn_eq (plan : Plan) (c : Chain) (line : Bytes) :
    ∃ j, plan.torn c line = line.take (plan.written c) ++ line.take j := by
  unfold Plan.torn
  split
  · exact ⟨0, rfl⟩
  · exact ⟨plan.rewritten c, rfl⟩

/-- Nothing goes wrong. -/
def Plan.fine : Plan := { outcome := fun _ => .ok, now := 0, written := fun _ => 0 }

/-- One call fails; `n` bytes reach the files where a write does. -/
def Plan.fault (call : Call) (n : ℕ) : Plan where
  outcome other := if other = call then .fails (ascii "No space left on device") else .ok
  now := 0
  written _ := n

/-- An exception on its way out of a handler, or the end of the process. -/
inductive Exit where
  | raised (what : Bytes)
  | killed

/-! ## SinkRecovery -/

structure SinkRecovery where
  failures : ℕ := 0
  unreported : ℕ := 0
  closedSince : ℕ := 0
  lastReport : ℕ := 0
deriving DecidableEq

namespace SinkRecovery

structure Decision where
  report : Bool := false
  firstFailure : Bool := false
  suppressed : ℕ := 0
  closedFor : ℕ := 0

structure Outage where
  closedFor : ℕ := 0
  failures : ℕ := 0

/-- In milliseconds, as a sink is given it. -/
def kRetryInterval : ℕ := 30 * 1000

def kReportInterval : ℕ := 60 * 10 ^ 9

/-- `onFailure`, where `next` is what `++` makes of a counter. -/
def onFailureBy (next : ℕ → ℕ) (r : SinkRecovery) (now : ℕ) : Decision × SinkRecovery :=
  if r.failures = 0 then
    ({ report := true, firstFailure := true }, { r with closedSince := now, lastReport := now, failures := 1 })
  else
    let counted := { r with failures := next r.failures, unreported := next r.unreported }
    if kReportInterval ≤ now - r.lastReport then
      ({ report := true, suppressed := counted.unreported, closedFor := (now - r.closedSince) / 10 ^ 9 },
        { counted with unreported := 0, lastReport := now })
    else ({}, counted)

/-- As a sink uses it: its attempts are a retry interval apart, so its counters do not run over. -/
def onFailure : SinkRecovery → ℕ → Decision × SinkRecovery := onFailureBy (· + 1)

def onRecovered (r : SinkRecovery) (now : ℕ) : Outage × SinkRecovery :=
  if r.failures = 0 then ({}, r)
  else (⟨(now - r.closedSince) / 10 ^ 9, r.failures⟩, { r with failures := 0, unreported := 0 })

end SinkRecovery

/-! ## State -/

/-- `reopened` records that `open` was called on a stream that was open; it is not part of the program. -/
structure LogFile where
  isOpen : Chain → Bool := fun _ => false
  good : Chain → Bool := fun _ => true
  size : Chain → ℕ := fun _ => 0
  recovery : SinkRecovery := {}
  closed : Bool := false
  shuttingDown : Bool := false
  startingUp : Bool := false
  retryArmed : Bool := false
  reopened : Bool := false

/-- The files under their paths. Two texts are two files only where the paths are in normal form, which
`Separated` asks for. -/
abbrev Disk := Bytes → Option Bytes

/-- What happened to the files: a line that was written, a generation that was removed from a disk, a
file that a rename replaced. -/
inductive Deed where
  | wrote (c : Chain) (line : Bytes)
  | removed (c : Chain) (n : ℕ) (content : Bytes) (before : Disk)
  | replaced (c : Chain) (content : Bytes)

structure World where
  disk : Disk
  sink : LogFile := {}
  running : Bool := false
  osLog : List Bytes := []
  trace : List Deed := []

abbrev M := Effect World Exit

def Chain.file (cfg : OutputConfig) : Chain → Bytes
  | .text => cfg.textFile
  | .jsonl => cfg.jsonlFile

def Chain.path (cfg : OutputConfig) (c : Chain) (n : ℕ) : Bytes := slotPath (c.file cfg) n

def onSink (f : LogFile → LogFile) : M Unit := Effect.modify fun w => { w with sink := f w.sink }

def setFile (path : Bytes) (content : Option Bytes) : M Unit :=
  Effect.modify fun w => { w with disk := Function.update w.disk path content }

def note (deed : Deed) : M Unit := Effect.modify fun w => { w with trace := w.trace ++ [deed] }

section Sink

variable (cfg : OutputConfig) (retryInterval : ℕ) (serialize : List (Bytes × Option Bytes) → Bytes)
  (plan : Plan)

/-- A call whose only failure is an exception. -/
def reach (call : Call) : M Unit :=
  match plan.outcome call with
  | .throws what => Effect.raise (.raised what)
  | .killed => Effect.raise .killed
  | _ => pure ()

/-- A call that reports an error code: the message of the error, if there is one. -/
def attempt (call : Call) : M (Option Bytes) :=
  match plan.outcome call with
  | .ok => pure none
  | .fails message => pure (some message)
  | .throws what => Effect.raise (.raised what)
  | .killed => Effect.raise .killed

def osLog (line : Bytes) : M Unit := do
  reach plan .report
  Effect.modify fun w => { w with osLog := w.osLog ++ [line] }

def formatInterval (interval : ℕ) : Bytes :=
  if interval % 1000 = 0 then numeral (interval / 1000) ++ ascii " s" else numeral interval ++ ascii " ms"

/-! ## Failing -/

def closeFiles : M Unit := onSink fun s => { s with isOpen := fun _ => false, size := fun _ => 0 }

def scheduleRetry : M Unit := onSink fun s => if s.shuttingDown then s else { s with retryArmed := true }

def failSink (reason : Bytes) : M Unit := do
  let w ← Effect.get
  if w.sink.startingUp then
    osLog plan (ascii "minilog: " ++ reason ++ ascii "; sink " ++ quoted cfg.name ++ ascii " cannot be opened")
    onSink fun s => { s with closed := true }
    closeFiles
  else
    let decision := (w.sink.recovery.onFailure plan.now).1
    onSink fun s => { s with recovery := (s.recovery.onFailure plan.now).2 }
    if decision.report then
      if decision.firstFailure then
        osLog plan (ascii "minilog: " ++ reason ++ ascii "; closing sink " ++ quoted cfg.name ++
          ascii ", retrying every " ++
            formatInterval retryInterval)
      else
        osLog plan (ascii "minilog: sink " ++ quoted cfg.name ++ ascii " still closed after " ++
          numeral decision.closedFor ++
            ascii " s: " ++ reason ++ ascii " (" ++ numeral decision.suppressed ++
            ascii " failed attempt(s) to reopen it since the last report)")
    onSink fun s => { s with closed := true }
    closeFiles
    scheduleRetry

def failSinkFromHandler (what : Bytes) : M Unit :=
  Effect.handle (failSink cfg retryInterval plan (ascii "unexpected exception in sink handler: " ++ what))
    fun exit =>
    match exit with
    | .raised _ => onSink fun s => { s with closed := true }
    | .killed => Effect.raise .killed

/-! ## Opening -/

/-- `stream.open(...)`, `stream.is_open()`. Opening a stream that is open already only sets its failbit. -/
def openStream (rotating : Bool) (c : Chain) : M Bool := do
  let w ← Effect.get
  if w.sink.isOpen c then
    onSink fun s => { s with good := Function.update s.good c false, reopened := true }
    return true
  match ← attempt plan (.openStream rotating c) with
  | some _ => return false
  | none =>
    setFile (c.file cfg) (some ((w.disk (c.file cfg)).getD []))
    onSink fun s => { s with isOpen := Function.update s.isOpen c true, good := Function.update s.good c true }
    return true

/-- One file of `openFiles`; `false` when it failed. -/
def openFile (rotating : Bool) (c : Chain) : M Bool := do
  if c.file cfg = [] then return true
  if ← openStream cfg plan rotating c then
    match ← attempt plan (.fileSize rotating c) with
    | some message =>
      failSink cfg retryInterval plan (ascii "cannot determine size of " ++ quoted (c.file cfg) ++
        ascii ": " ++ message)
      return false
    | none =>
      let w ← Effect.get
      onSink fun s => { s with size := Function.update s.size c ((w.disk (c.file cfg)).getD []).length }
      return true
  else
    failSink cfg retryInterval plan (ascii "failed to open " ++ quoted (c.file cfg))
    return false

def openFiles (rotating : Bool) : M Unit := do
  if ← openFile cfg retryInterval plan rotating .text then
    discard (openFile cfg retryInterval plan rotating .jsonl)

/-! ## Rotating -/

/-- Whether a file is there; `none` when it cannot be told, and then the sink has failed. -/
def probeFile (call : Call) (path : Bytes) : M (Option Bool) := do
  match ← attempt plan call with
  | some message =>
    failSink cfg retryInterval plan (ascii "rotation probe failed for " ++ quoted path ++ ascii ": " ++ message)
    return none
  | none =>
    let w ← Effect.get
    return some (w.disk path).isSome

def probeLimit : ℕ := if 0 < cfg.maxFiles then cfg.maxFiles else 1000

/-- The loop that looks for the highest generation: `left` probes from generation `n` on. -/
def findHighest (c : Chain) : ℕ → ℕ → ℕ → M (Option ℕ)
  | 0, _, highest => return some highest
  | left + 1, n, highest => do
    match ← probeFile cfg retryInterval plan (.probe c n) (c.path cfg n) with
    | none => return none
    | some found => findHighest c left (n + 1) (if found then n else highest)

/-- The loop that removes generations from `n` down to `max_files`. -/
def removeOld (c : Chain) : ℕ → M Bool
  | 0 => return true
  | n + 1 =>
    if n + 1 < cfg.maxFiles then return true
    else do
      match ← probeFile cfg retryInterval plan (.probeOld c (n + 1)) (c.path cfg (n + 1)) with
      | none => return false
      | some false => removeOld c n
      | some true =>
        match ← attempt plan (.remove c (n + 1)) with
        | some message =>
          failSink cfg retryInterval plan (ascii "rotation remove failed for " ++
            quoted (c.path cfg (n + 1)) ++ ascii ": " ++ message)
          return false
        | none =>
          let w ← Effect.get
          note (.removed c (n + 1) ((w.disk (c.path cfg (n + 1))).getD []) w.disk)
          setFile (c.path cfg (n + 1)) none
          removeOld c n

/-- Slot `n` goes to slot `n + 1` if it is there. -/
def shiftOne (c : Chain) (n : ℕ) : M Bool := do
  match ← probeFile cfg retryInterval plan (.probeShift c n) (c.path cfg n) with
  | none => return false
  | some false => return true
  | some true =>
    match ← attempt plan (.rename c n) with
    | some message =>
      failSink cfg retryInterval plan (ascii "rotation rename failed for " ++ quoted (c.path cfg n) ++
        ascii ": " ++ message)
      return false
    | none =>
      let w ← Effect.get
      match w.disk (c.path cfg (n + 1)) with
      | some content => note (.replaced c content)
      | none => pure ()
      setFile (c.path cfg (n + 1)) (w.disk (c.path cfg n))
      setFile (c.path cfg n) none
      return true

/-- The generations `n`, ..., 1. -/
def shiftUp (c : Chain) : ℕ → M Bool
  | 0 => return true
  | n + 1 => do
    if ← shiftOne cfg retryInterval plan c (n + 1) then shiftUp c n else return false

/-- The generations `n`, ..., 1 and then the active file. -/
def shiftDown (c : Chain) (n : ℕ) : M Bool := do
  if ← shiftUp cfg retryInterval plan c n then shiftOne cfg retryInterval plan c 0 else return false

def shiftFiles (c : Chain) : M Bool := do
  match ← findHighest cfg retryInterval plan c (probeLimit cfg) 1 0 with
  | none => return false
  | some highest =>
    if 0 < cfg.maxFiles ∧ cfg.maxFiles ≤ highest then
      if ← removeOld cfg retryInterval plan c highest then shiftDown cfg retryInterval plan c (cfg.maxFiles - 1)
      else return false
    else shiftDown cfg retryInterval plan c highest

def shiftChain (c : Chain) : M Bool :=
  if c.file cfg = [] then return true else shiftFiles cfg retryInterval plan c

def rotate : M Unit := do
  closeFiles
  if ← shiftChain cfg retryInterval plan .text then
    if ← shiftChain cfg retryInterval plan .jsonl then openFiles cfg retryInterval plan true

def rotateIfNeeded : M Unit := do
  let w ← Effect.get
  if cfg.maxSize ≠ 0 ∧ (cfg.maxSize ≤ w.sink.size .text ∨ cfg.maxSize ≤ w.sink.size .jsonl) then
    rotate cfg retryInterval plan

/-! ## Writing -/

/-- `stream.write(...)`, `stream.flush()`: whether the stream is still good. If it is not, the sink fails and
closes its files; nothing comes to this one in between, so what the close adds is added here. -/
def writeLine (c : Chain) (line : Bytes) : M Bool := do
  let w ← Effect.get
  if w.sink.good c = false then return false
  let content := (w.disk (c.file cfg)).getD []
  match plan.outcome (.write c) with
  | .ok =>
    setFile (c.file cfg) (some (content ++ line))
    note (.wrote c line)
    return true
  | .fails _ =>
    setFile (c.file cfg) (some (content ++ plan.torn c line))
    onSink fun s => { s with good := Function.update s.good c false }
    return false
  | .throws what =>
    setFile (c.file cfg) (some (content ++ plan.torn c line))
    Effect.raise (.raised what)
  | .killed =>
    setFile (c.file cfg) (some (content ++ plan.torn c line))
    Effect.raise .killed

/-- The line of a message in a chain, with its LF. -/
def Chain.line (c : Chain) (msg : SyslogMessage) (rcv : Bytes) : Bytes :=
  match c with
  | .text => escapeControlChars msg.raw ++ [lf]
  | .jsonl => toJsonlRecord serialize msg rcv ++ [lf]

/-- One file of `doWrite`; `false` when it failed. -/
def writeChain (c : Chain) (msg : SyslogMessage) (rcv : Bytes) : M Bool := do
  let w ← Effect.get
  if w.sink.isOpen c = false then return true
  reach plan (.format c)
  let line := c.line serialize msg rcv
  if ← writeLine cfg plan c line then
    onSink fun s => { s with size := Function.update s.size c (s.size c + line.length) }
    return true
  else
    failSink cfg retryInterval plan (ascii "write to " ++ quoted (c.file cfg) ++ ascii " failed")
    return false

/-- Whether the sink takes a message at all. -/
def accepts (msg : SyslogMessage) : Bool := msg.protocol ≠ .unknown || cfg.includeMalformed

def needOpen (s : LogFile) : Bool :=
  (cfg.textFile ≠ [] && !s.isOpen .text) || (cfg.jsonlFile ≠ [] && !s.isOpen .jsonl)

def doWrite (msg : SyslogMessage) (rcv : Bytes) : M Unit := do
  let w ← Effect.get
  if w.sink.closed = true ∨ accepts cfg msg = false then return ()
  if needOpen cfg w.sink then openFiles cfg retryInterval plan false
  rotateIfNeeded cfg retryInterval plan
  reach plan .timestamp
  if ← writeChain cfg retryInterval serialize plan .text msg rcv then
    discard (writeChain cfg retryInterval serialize plan .jsonl msg rcv)

/-! ## Handlers -/

def openAtStartup : M Unit := do
  onSink fun s => { s with startingUp := true }
  openFiles cfg retryInterval plan false
  onSink fun s => { s with startingUp := false }

def attemptReopen : M Unit := do
  onSink fun s => { s with closed := false }
  openFiles cfg retryInterval plan false
  let w ← Effect.get
  if w.sink.closed = false then
    let outage := (w.sink.recovery.onRecovered plan.now).1
    onSink fun s => { s with recovery := (s.recovery.onRecovered plan.now).2 }
    osLog plan (ascii "minilog: sink " ++ quoted cfg.name ++ ascii " reopened after " ++
      numeral outage.closedFor ++ ascii " s and " ++ numeral outage.failures ++
      ascii " failure(s); messages routed to it during that time were dropped")

/-- The last line of defence around a handler. -/
def guarded (body : M Unit) : M Unit :=
  Effect.handle body fun exit =>
    match exit with
    | .raised what => failSinkFromHandler cfg retryInterval plan what
    | .killed => Effect.raise .killed

def closeSink : M Unit := do
  onSink fun s => { s with shuttingDown := true, closed := true, retryArmed := false }
  closeFiles

end Sink

/-! ## Runs -/

/-- What happens to a sink: its process starts, with the files opened at once or with the first message;
a message reaches its strand; its retry timer expires; it is closed. -/
inductive Event where
  | start (openNow : Bool) (plan : Plan)
  | write (msg : SyslogMessage) (rcv : Bytes) (plan : Plan)
  | retry (plan : Plan)
  | close

section Run

variable (cfg : OutputConfig) (retryInterval : ℕ) (serialize : List (Bytes × Option Bytes) → Bytes)

/-- The handler of an event. A sink that cannot be opened at startup ends the process. -/
def handler : Event → M Unit
  | .start openNow plan => do
    Effect.modify fun w => { w with sink := {}, running := true }
    if openNow then
      openAtStartup cfg retryInterval plan
      Effect.modify fun w => { w with running := !w.sink.closed }
  | .write msg rcv plan => guarded cfg retryInterval plan (doWrite cfg retryInterval serialize plan msg rcv)
  | .retry plan => do
    let w ← Effect.get
    if w.sink.retryArmed then
      onSink fun s => { s with retryArmed := false }
      if w.sink.shuttingDown = false then guarded cfg retryInterval plan (attemptReopen cfg retryInterval plan)
  | .close => closeSink

def Event.isStart : Event → Bool
  | .start .. => true
  | _ => false

/-- A message that meets no fault. -/
def sample (raw : String) : Event := .write { raw := ascii raw } [] .fine

/-- Nothing happens without a process; a handler that is killed, or that lets an exception out, ends it. -/
def step (w : World) (e : Event) : World :=
  if w.running = false ∧ e.isStart = false then w
  else
    match handler cfg retryInterval serialize e w with
    | (.ok _, w') => w'
    | (.error _, w') => { w' with running := false }

def run (w : World) (events : List Event) : World := events.foldl (step cfg retryInterval serialize) w

/-- No files, no process. -/
def blank : World := { disk := fun _ => none }

end Run

end Minilog.Output
