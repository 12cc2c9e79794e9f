import Minilog.Lib.Fanout
import Minilog.Parser.Classify
import Minilog.Server.Facilities

/-! From a datagram to the strands: the handler that `UdpServer::onReceive` posts, `OutputManager::dispatch` and
`Forwarder::forward`.

An admitted datagram is a handler in the queue of the `io_context`. One of `workers` threads runs it: it
parses the datagram and posts the message to the strand of each sink whose facility filter it passes, in the
order of the sections, and to the forwarder's; each strand runs its handlers one after the other. Between two
posts anything else may happen, and a post that throws ends the handler. Whether a datagram is admitted is the
business of `Admission`; a datagram that is not is gone. -/
namespace Minilog.Server
open Lib
open Minilog.Parser
set_option autoImplicit false

/-- What is copied out of the receive buffer. -/
structure Datagram where
  data : Bytes
  srcIp : Bytes
deriving DecidableEq

/-- The message of a datagram; the parser takes every one (`message_eq`). -/
def Datagram.message (d : Datagram) : SyslogMessage :=
  match parseSyslog d.data with
  | .ok msg => { msg with srcIp := d.srcIp }
  | .error _ => { raw := d.data, srcIp := d.srcIp }

theorem Datagram.message_eq (d : Datagram) : ∃ msg, parseSyslog d.data = .ok msg ∧
    d.message = { msg with srcIp := d.srcIp } := by
  obtain ⟨msg, hmsg, -⟩ := parseSyslog_text d.data
  refine ⟨msg, hmsg, ?_⟩
  rw [Datagram.message, hmsg]

/-- The strands a message can be posted to. -/
inductive Strand where
  | sink (i : ℕ)
  | forwarder
deriving DecidableEq

/-- Whether the message passes the facility filter of the section. -/
def OutputConfig.routes (out : OutputConfig) (msg : SyslogMessage) : Bool :=
  facilityMatches out.facilities out.excludedFacilities msg.facility

/-- The loop of `OutputManager::dispatch`, over the sections from number `i` on. -/
def dispatch (msg : SyslogMessage) : ℕ → List OutputConfig → List Strand
  | _, [] => []
  | i, out :: outs => if out.routes msg then .sink i :: dispatch msg (i + 1) outs else dispatch msg (i + 1) outs

/-- The posts of the handler, in order. There is a forwarder if forwarding is enabled; its own filter is
applied on its strand. -/
def Config.posts (cfg : Config) (d : Datagram) : List Strand :=
  dispatch d.message 0 cfg.outputs ++ if cfg.forwarding.enabled then [.forwarder] else []

abbrev Pipeline := Network Datagram Strand

/-! ## The strands of a message -/

theorem mem_dispatch (msg : SyslogMessage) (i : ℕ) (outs : List OutputConfig) (s : Strand) :
    s ∈ dispatch msg i outs ↔ ∃ k out, outs[k]? = some out ∧ out.routes msg = true ∧ s = .sink (i + k) := by
  induction outs generalizing i with
  | nil => simp [dispatch]
  | cons out outs ih =>
    have hsplit : (∃ k o, (out :: outs)[k]? = some o ∧ o.routes msg = true ∧ s = .sink (i + k)) ↔
        (out.routes msg = true ∧ s = .sink i) ∨ ∃ k o, outs[k]? = some o ∧ o.routes msg = true ∧
        s = .sink (i + 1 + k) := by
      constructor
      · rintro ⟨k, o, ho, hroutes, rfl⟩
        cases k with
        | zero =>
          cases ho
          exact .inl ⟨hroutes, rfl⟩
        | succ k => exact .inr ⟨k, o, ho, hroutes, by rw [Nat.add_assoc, Nat.add_comm 1 k]⟩
      · rintro (⟨hroutes, rfl⟩ | ⟨k, o, ho, hroutes, rfl⟩)
        · exact ⟨0, out, rfl, hroutes, rfl⟩
        · exact ⟨k + 1, o, ho, hroutes, by rw [Nat.add_assoc, Nat.add_comm 1 k]⟩
    rw [hsplit, dispatch, ← ih]
    split_ifs with hroutes
    · rw [List.mem_cons, hroutes]
      simp
    · rw [or_iff_right fun h => hroutes h.1]

/-- No section is served twice. -/
theorem nodup_dispatch (msg : SyslogMessage) (i : ℕ) (outs : List OutputConfig) :
    (dispatch msg i outs).Nodup := by
  induction outs generalizing i with
  | nil => exact List.nodup_nil
  | cons out outs ih =>
    rw [dispatch]
    split_ifs
    · refine List.nodup_cons.mpr ⟨fun hmem => ?_, ih (i + 1)⟩
      obtain ⟨k, o, -, -, heq⟩ := (mem_dispatch msg (i + 1) outs _).mp hmem
      injection heq with heq
      omega
    · exact ih (i + 1)

section Posts

variable (cfg : Config) (d : Datagram)

theorem nodup_posts : (cfg.posts d).Nodup := by
  refine List.nodup_append.mpr ⟨nodup_dispatch _ _ _, ?_, fun s hs u hu => ?_⟩
  · split_ifs
    · exact List.nodup_singleton _
    · exact List.nodup_nil
  · obtain ⟨k, out, -, -, rfl⟩ := (mem_dispatch _ _ _ s).mp hs
    split_ifs at hu
    · rw [List.mem_singleton.mp hu]
      simp
    · cases hu

/-- The strand of a section gets the messages its filter lets pass. -/
theorem sink_mem_posts (i : ℕ) (out : OutputConfig) (hi : cfg.outputs[i]? = some out) :
    .sink i ∈ cfg.posts d ↔ out.routes d.message = true := by
  have hforwarder : Strand.sink i ∉ (if cfg.forwarding.enabled then [Strand.forwarder] else []) := by
    split_ifs
    · simp
    · exact List.not_mem_nil
  rw [Config.posts, List.mem_append, or_iff_left hforwarder, mem_dispatch]
  constructor
  · rintro ⟨k, o, ho, hroutes, heq⟩
    injection heq with heq
    obtain rfl : i = k := by omega
    rw [hi] at ho
    cases ho
    exact hroutes
  · intro hroutes
    exact ⟨i, out, hi, hroutes, by rw [Nat.zero_add]⟩

theorem forwarder_mem_posts : .forwarder ∈ cfg.posts d ↔ cfg.forwarding.enabled = true := by
  have hdispatch : Strand.forwarder ∉ dispatch d.message 0 cfg.outputs := by
    intro hmem
    obtain ⟨k, o, -, -, heq⟩ := (mem_dispatch _ _ _ _).mp hmem
    cases heq
  rw [Config.posts, List.mem_append, or_iff_right hdispatch]
  split_ifs with henabled
  · simp [henabled]
  · simp [henabled]

end Posts

/-! ## Every admitted datagram reaches its strands -/

section Runs

variable (cfg : Config) (moves : List (Move Datagram Strand)) (p : Pipeline)

/-- The admitted datagrams that a strand is to get. -/
def Config.routed (cfg : Config) (s : Strand) (d : Datagram) : Bool :=
  match s with
  | .sink i => (cfg.outputs[i]?).any fun out => out.routes d.message
  | .forwarder => cfg.forwarding.enabled

theorem mem_posts_iff (s : Strand) (d : Datagram) : s ∈ cfg.posts d ↔ cfg.routed s d = true := by
  cases s with
  | forwarder => exact forwarder_mem_posts cfg d
  | sink i =>
    cases hi : cfg.outputs[i]? with
    | some out => rw [sink_mem_posts cfg d i out hi, Config.routed, hi, Option.any_some]
    | none =>
      refine iff_of_false (fun hmem => ?_) (by rw [Config.routed, hi]; exact Bool.false_ne_true)
      rcases List.mem_append.mp hmem with hmem | hmem
      · obtain ⟨k, o, ho, -, heq⟩ := (mem_dispatch _ _ _ _).mp hmem
        injection heq with heq
        obtain rfl : i = k := by omega
        rw [hi] at ho
        cases ho
      · split_ifs at hmem
        · cases List.mem_singleton.mp hmem
        · cases hmem

theorem meant_routed (s : Strand) : p.meant cfg.posts s = p.accepted.filter fun d => cfg.routed s d := by
  rw [Network.meant_nodup cfg.posts p s (nodup_posts cfg)]
  refine List.filter_congr fun d _ => ?_
  rw [Bool.eq_iff_iff, decide_eq_true_iff]
  exact mem_posts_iff cfg s d

/-- Whatever the workers and the strands do in which order: every admitted datagram that is routed to a strand
has been handled there once, or waits on the strand, or has still to be posted, or was lost in a handler that
threw; and nothing else comes there. With one worker, and no handler that throws, the strand sees them in the
order of their arrival. Once nothing moves any more, the strand has handled all of them but those that were
lost. -/
theorem pipeline_delivers (hrun : exec (Network.step cfg.posts cfg.workers) {} moves = some p) (s : Strand) :
    (p.handled s ++ p.queued s ++ p.due cfg.posts s ++ p.lost s).Perm
    (p.accepted.filter fun d => cfg.routed s d) ∧
      (cfg.workers = 1 → (∀ a ∈ moves, a.isAbort = false) →
        p.handled s ++ p.queued s ++ p.due cfg.posts s = p.accepted.filter fun d => cfg.routed s d) ∧
      (0 < cfg.workers → p.Idle cfg.posts cfg.workers →
        (p.handled s ++ p.lost s).Perm (p.accepted.filter fun d => cfg.routed s d)) := by
  have hdelivers := Network.exec_delivers cfg.posts cfg.workers moves p hrun s
  rw [meant_routed] at hdelivers
  refine ⟨hdelivers, fun hone hfine => ?_, fun hworkers hidle => ?_⟩
  · rw [hone] at hrun
    rw [← meant_routed]
    exact (Network.exec_ordered cfg.posts moves hfine p hrun).order s
  · obtain ⟨hqueued, hdue⟩ := hidle.ledger cfg.posts cfg.workers hworkers s
    rw [Network.ledger, hqueued, hdue, List.append_nil, List.append_nil] at hdelivers
    exact hdelivers

end Runs

/-- A section for mail, one for everything, and a forwarder. -/
def mailAndAll : Config where
  workers := 1
  outputs := [{ name := ascii "mail", facilities := [2] }, { name := ascii "all" }]
  forwarding := { enabled := true }

def mailDatagram : Datagram := ⟨ascii "<20>1 - h a - - - m", ascii "10.0.0.1"⟩

def userDatagram : Datagram := ⟨ascii "<12>1 - h a - - - u", ascii "10.0.0.2"⟩

/-- The mail is dispatched while the other datagram waits. -/
def twoDatagrams : List (Move Datagram Strand) :=
  [.accept mailDatagram, .accept userDatagram, .take, .post 0, .handle (.sink 0), .post 0, .post 0, .post 0,
    .take, .post 0, .handle (.sink 1)]

theorem pipeline_delivers_two : ∃ p, exec (Network.step mailAndAll.posts mailAndAll.workers)
    {} twoDatagrams = some p ∧
    p.handled (.sink 0) = [mailDatagram] ∧ p.handled (.sink 1) = [mailDatagram] ∧
    p.queued (.sink 1) = [userDatagram] ∧
    p.handled (.sink 1) ++ p.queued (.sink 1) ++ p.due mailAndAll.posts (.sink 1) =
      p.accepted.filter fun d => mailAndAll.routed (.sink 1) d := by
  refine ⟨_, rfl, rfl, rfl, rfl, ?_⟩
  exact (pipeline_delivers mailAndAll twoDatagrams _ rfl (.sink 1)).2.1 rfl (by decide)

end Minilog.Server
