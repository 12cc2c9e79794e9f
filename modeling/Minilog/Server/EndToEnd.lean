import Minilog.Output.History
import Minilog.Server.Pipeline
import Minilog.Server.Sinks

/-! From the socket to the files.

The whole server: the datagrams that are admitted, the workers that dispatch them, the strands of the sinks,
and the files. When no call of a sink fails, the files of a section hold the messages its strand has handled
(`Service.history`), and these are, with what is still under way, the datagrams that were admitted and routed
to it (`service_stores`). -/
namespace Minilog.Server
open Lib Lib.Effect
open Minilog.Parser Minilog.Output
set_option autoImplicit false

structure Service where
  pipeline : Pipeline := {}
  sinks : Sinks

/-- What happens next: something on the way to the strands, a handler of a strand, or a retry timer. -/
inductive Activity where
  | accept (d : Datagram)
  | take
  | post (i : ℕ)
  | abort (i : ℕ)
  | write (i : ℕ) (rcv : Bytes) (plan : Plan)
  | forward
  | retry (i : ℕ) (plan : Plan)

def Activity.move : Activity → Option (Move Datagram Strand)
  | .accept d => some (.accept d)
  | .take => some .take
  | .post i => some (.post i)
  | .abort i => some (.abort i)
  | .write i _ _ => some (.handle (.sink i))
  | .forward => some (.handle .forwarder)
  | .retry _ _ => none

/-- No call of a sink fails. -/
def Activity.Fine : Activity → Prop
  | .write _ _ plan => plan.AllOk
  | .retry _ plan => plan.AllOk
  | _ => True

section Steps

variable (retryInterval : ℕ) (serialize : List (Bytes × Option Bytes) → Bytes) (cfg : Config)

/-- The handler of a sink writes the message that is first in its queue. -/
def Service.event (s : Service) : Activity → Option (ℕ × Event)
  | .write i rcv plan => (s.pipeline.queued (.sink i)).head?.map fun d => (i, .write d.message rcv plan)
  | .retry i plan => some (i, .retry plan)
  | _ => none

def Service.step (s : Service) (t : Activity) : Option Service :=
  match t.move with
  | none => some ⟨s.pipeline, (s.event t).elim s.sinks (Sinks.step retryInterval serialize cfg s.sinks)⟩
  | some m => (Network.step cfg.posts cfg.workers s.pipeline m).map fun p =>
      ⟨p, (s.event t).elim s.sinks (Sinks.step retryInterval serialize cfg s.sinks)⟩

/-- `OutputManager::open`: every sink opens its files. -/
def openings : List (ℕ × Event) := (List.range cfg.outputs.length).map fun i => (i, .start true .fine)

def Service.started (disk : Disk) : Service :=
  { sinks := Sinks.run retryInterval serialize cfg { disk := disk } (openings cfg) }

/-! ## What the sinks were given -/

/-- The messages of the handlers of a sink, and the times they were written at. -/
def given (events : List Event) : List Received :=
  events.filterMap fun e =>
    match e with
    | .write msg rcv _ => some (msg, rcv)
    | _ => none

/-- While the server runs, its sinks only write and retry. -/
def Working : Event → Prop
  | .write _ _ plan => plan.AllOk
  | .retry plan => plan.AllOk
  | _ => False

theorem Working.lives {e : Event} (h : Working e) : e.Lives := by
  cases e with
  | start openNow plan => exact h.elim
  | write msg rcv plan => exact Plan.AllOk.lives h
  | retry plan => exact Plan.AllOk.lives h
  | close => exact h.elim

theorem Working.fine {e : Event} (h : Working e) : e.Fine := by
  cases e with
  | start openNow plan => exact h.elim
  | write msg rcv plan => exact h
  | retry plan => exact h
  | close => exact h.elim

/-- A sink that works accepts what it is given, unless it is malformed and not wanted. -/
theorem accepted_working (out : OutputConfig) (events : List Event) (h : ∀ e ∈ events, Working e) :
    accepted out true events = (given events).filter fun m => accepts out m.1 := by
  induction events with
  | nil => rfl
  | cons e events ih =>
    have htail := ih fun e' he' => h e' (List.mem_cons_of_mem _ he')
    cases e with
    | start openNow plan => exact (h _ List.mem_cons_self).elim
    | close => exact (h _ List.mem_cons_self).elim
    | retry plan => exact htail
    | write msg rcv plan =>
      change (if true && accepts out msg then [(msg, rcv)] else []) ++ accepted out true events = _
      rw [htail]
      change _ = ((msg, rcv) :: given events).filter _
      by_cases hm : accepts out msg = true
      · rw [List.filter_cons_of_pos (by simpa using hm), Bool.true_and, if_pos hm]
        rfl
      · rw [List.filter_cons_of_neg (by simpa using hm), Bool.true_and, if_neg hm]
        rfl

theorem eventsOf_append (i : ℕ) (as bs : List (ℕ × Event)) :
    eventsOf i (as ++ bs) = eventsOf i as ++ eventsOf i bs := by
  unfold eventsOf
  rw [List.filter_append, List.map_append]

theorem eventsOf_openings (i : ℕ) (hi : i < cfg.outputs.length) :
    eventsOf i (openings cfg) = [.start true .fine] := by
  unfold eventsOf openings
  rw [List.filter_map, List.map_map]
  have hone : (List.range cfg.outputs.length).filter ((fun e : ℕ × Event => decide (e.1 = i)) ∘ fun k =>
      (k, Event.start true .fine)) = [i] := by
    have hcount : (List.range cfg.outputs.length).filter (fun k => k = i) = [i] := by
      rw [List.filter_eq, List.count_eq_one_of_mem List.nodup_range (List.mem_range.mpr hi)]
      rfl
    exact hcount
  rw [hone]
  rfl

/-! ## Runs -/

/-- What the pipeline and the sinks have to do with each other. -/
structure Service.Linked (s₀ s : Service) (activities : List Activity) (events : List (ℕ × Event)) : Prop where
  moves : exec (Network.step cfg.posts cfg.workers) s₀.pipeline (activities.filterMap Activity.move) =
    some s.pipeline
  sinks : s.sinks = Sinks.run retryInterval serialize cfg s₀.sinks events
  working : ∀ e ∈ events, Working e.2
  given : ∀ i, (given (eventsOf i events)).map Prod.fst = (s.pipeline.handled (.sink i)).map Datagram.message

variable {cfg}

theorem Service.step_cases (s s' : Service) (t : Activity)
    (h : Service.step retryInterval serialize cfg s t = some s') :
    (t.move = none ∧ s'.pipeline = s.pipeline ∨
      ∃ m, t.move = some m ∧ Network.step cfg.posts cfg.workers s.pipeline m = some s'.pipeline) ∧
      s'.sinks = (s.event t).elim s.sinks (Sinks.step retryInterval serialize cfg s.sinks) := by
  unfold Service.step at h
  cases hm : t.move with
  | none =>
    rw [hm] at h
    cases h
    exact ⟨.inl ⟨rfl, rfl⟩, rfl⟩
  | some m =>
    rw [hm] at h
    obtain ⟨p, hp, rfl⟩ := Option.map_eq_some_iff.mp h
    exact ⟨.inr ⟨m, rfl, hp⟩, rfl⟩

theorem Service.event_write (s : Service) (i : ℕ) (rcv : Bytes) (plan : Plan) :
    s.event (.write i rcv plan) = (s.pipeline.queued (.sink i)).head?.map fun d =>
    (i, .write d.message rcv plan) := rfl

/-- Only a handler of its strand adds to what a sink has handled. -/
theorem Service.step_handled (s s' : Service) (t : Activity)
    (h : Service.step retryInterval serialize cfg s t = some s') (i : ℕ) :
    (∃ d queued, t.move = some (.handle (.sink i)) ∧ s.pipeline.queued (.sink i) = d :: queued ∧
        s'.pipeline.handled (.sink i) = s.pipeline.handled (.sink i) ++ [d]) ∨
      (t.move ≠ some (.handle (.sink i)) ∧ s'.pipeline.handled (.sink i) = s.pipeline.handled (.sink i)) := by
  obtain ⟨hm, hsame⟩ | ⟨m, hm, hstep⟩ := (Service.step_cases retryInterval serialize s s' t h).1
  · exact .inr ⟨by rw [hm]; exact nofun, by rw [hsame]⟩
  · obtain ⟨d, queued, rfl, hqueued, hown⟩ | ⟨hne, hsame⟩ :=
      Network.step_handled cfg.posts cfg.workers _ _ m (.sink i) hstep
    · exact .inl ⟨d, queued, hm, hqueued, hown⟩
    · refine .inr ⟨fun heq => hne ?_, hsame⟩
      rw [hm] at heq
      exact Option.some.inj heq

/-- The event of an activity, for the sink of section `i`. -/
theorem Service.event_cases (s : Service) (t : Activity) (i : ℕ) :
    (∃ rcv plan, t = .write i rcv plan) ∨
    (t.move ≠ some (.handle (.sink i)) ∧ Server.given (eventsOf i (s.event t).toList) = []) := by
  have hnone : ∀ o : Option (ℕ × Event), o = none → Server.given (eventsOf i o.toList) = [] := by
    rintro o rfl
    rfl
  cases t with
  | write j rcv plan =>
    by_cases hij : j = i
    · exact .inl ⟨rcv, plan, by rw [hij]⟩
    · refine .inr ⟨fun heq => ?_, ?_⟩
      · injection heq with heq
        injection heq with heq
        injection heq with heq
        exact hij heq
      · rw [Service.event_write]
        cases (s.pipeline.queued (.sink j)).head? with
        | none => rfl
        | some d => simp [eventsOf, hij, Server.given]
  | retry j plan =>
    refine .inr ⟨fun heq => (by cases heq), ?_⟩
    change Server.given (eventsOf i [(j, .retry plan)]) = []
    unfold eventsOf
    by_cases hij : j = i
    · rw [List.filter_cons_of_pos (by simpa using hij)]
      rfl
    · rw [List.filter_cons_of_neg (by simpa using hij)]
      rfl
  | accept d => exact .inr ⟨fun heq => (by injection heq with heq; cases heq), hnone _ rfl⟩
  | take => exact .inr ⟨fun heq => (by injection heq with heq; cases heq), hnone _ rfl⟩
  | post k => exact .inr ⟨fun heq => (by injection heq with heq; cases heq), hnone _ rfl⟩
  | abort k => exact .inr ⟨fun heq => (by injection heq with heq; cases heq), hnone _ rfl⟩
  | forward =>
    exact .inr ⟨fun heq => (by injection heq with heq; injection heq with heq; cases heq), hnone _ rfl⟩

theorem Service.event_working (s : Service) (t : Activity) (ht : t.Fine) :
    ∀ e ∈ (s.event t).toList, Working e.2 := by
  intro e he
  rw [Option.mem_toList] at he
  unfold Service.event at he
  cases t with
  | write i rcv plan =>
    obtain ⟨d, -, rfl⟩ := Option.map_eq_some_iff.mp he
    exact ht
  | retry i plan =>
    cases he
    exact ht
  | accept d => cases he
  | take => cases he
  | post i => cases he
  | abort i => cases he
  | forward => cases he

/-- One activity: what a sink is given is what its strand handles. -/
theorem Service.step_given (s s' : Service) (t : Activity)
    (h : Service.step retryInterval serialize cfg s t = some s') (i : ℕ) :
    (s'.pipeline.handled (.sink i)).map Datagram.message =
      (s.pipeline.handled (.sink i)).map Datagram.message ++
      (Server.given (eventsOf i (s.event t).toList)).map Prod.fst := by
  obtain ⟨rcv, plan, rfl⟩ | ⟨hne, hnil⟩ := Service.event_cases s t i
  · obtain ⟨d, queued, -, hqueued, hown⟩ :=
      (Service.step_handled retryInterval serialize s s' _ h i).resolve_right fun hne => hne.1 rfl
    have hevent : s.event (.write i rcv plan) = some (i, .write d.message rcv plan) := by
      rw [Service.event_write, hqueued]
      rfl
    rw [hevent, hown, List.map_append]
    simp [eventsOf, Server.given]
  · obtain ⟨-, -, hmove, -, -⟩ | ⟨-, hsame⟩ := Service.step_handled retryInterval serialize s s' t h i
    · exact absurd hmove hne
    · rw [hsame, hnil, List.map_nil, List.append_nil]

theorem Service.run_linked (s₀ s : Service) (activities : List Activity) (hfine : ∀ t ∈ activities, t.Fine)
    (hnew : ∀ i, s₀.pipeline.handled (.sink i) = [])
    (h : exec (Service.step retryInterval serialize cfg) s₀ activities = some s) :
    ∃ events, Service.Linked retryInterval serialize cfg s₀ s activities events := by
  refine exec_induct (Service.step retryInterval serialize cfg) s₀
    (fun activities s => (∀ t ∈ activities, t.Fine) → ∃ events,
      Service.Linked retryInterval serialize cfg s₀ s activities events)
    (fun _ => ⟨[], rfl, rfl, fun _ he => absurd he List.not_mem_nil, fun i => ?_⟩)
    (fun as u t u' hrun ih hstep hall => ?_) activities s h hfine
  · rw [hnew i]
    rfl
  · obtain ⟨events, hlinked⟩ := ih fun t' ht' => hall t' (List.mem_append_left _ ht')
    obtain ⟨hmoves, hsinks⟩ := Service.step_cases retryInterval serialize u u' t hstep
    refine ⟨events ++ (u.event t).toList, ?_, ?_, ?_, fun i => ?_⟩
    · rw [List.filterMap_append]
      obtain ⟨hm, hsame⟩ | ⟨m, hm, hnetwork⟩ := hmoves
      · rw [List.filterMap_cons_none hm, List.filterMap_nil, List.append_nil, hsame]
        exact hlinked.moves
      · rw [List.filterMap_cons_some hm, List.filterMap_nil, exec_snoc _ _ _ _ _ hlinked.moves]
        exact hnetwork
    · unfold Sinks.run
      rw [List.foldl_append]
      change u'.sinks = List.foldl _ (Sinks.run retryInterval serialize cfg s₀.sinks events) _
      rw [← hlinked.sinks, hsinks]
      cases u.event t with
      | none => rfl
      | some e => rfl
    · intro e he
      rcases List.mem_append.mp he with he | he
      · exact hlinked.working e he
      · exact Service.event_working u t (hall t (by simp)) e he
    · rw [eventsOf_append, Service.step_given retryInterval serialize u u' t hstep i, ← hlinked.given i]
      unfold Server.given
      rw [List.filterMap_append, List.map_append]

/-! ## The files -/

/-- A sink without any files holds no message. -/
theorem tracks_none (out : OutputConfig) (w : World) (hdisk : ∀ p, w.disk p = none) (htrace : w.trace = []) :
    Tracks out serialize (w.archive out) [] [] := by
  have hnone : ∀ c n, (w.archive out).slots c n = none := by
    intro c n
    change slots out w.disk c n = none
    unfold slots
    split_ifs
    · exact hdisk _
    · rfl
  have hlisting : ∀ (t : Slots Bytes) n, (∀ m, t m = none) → t.listing n = [] := by
    intro t n ht
    induction n with
    | zero => rfl
    | succ n ih =>
      rw [Slots.listing, ih, ht n]
      rfl
  refine ⟨fun c _ => ⟨Nat.min_le_right _ _, fun n hn hle => ?_, fun n _ => hnone c n⟩, fun c _ => ?_,
    fun c _ => ?_, ?_⟩
  · rw [List.length_nil, Nat.zero_min] at hle
    omega
  · unfold archived
    rw [hlisting]
    · change gone c w.trace ++ [] = []
      rw [htrace]
      rfl
    · intro m
      by_cases hm : m = 0
      · rw [hm, Slots.set_same]
      · rw [Slots.set_other _ _ _ _ hm, hnone c m]
  · unfold active
    rw [hnone c 0]
    rfl
  · funext p
    change outside out w.disk p = none
    unfold Output.outside
    split_ifs
    · rfl
    · exact hdisk p

variable (hseparate : cfg.Separate) (disk : Disk)

include hseparate in
/-- The files of a section hold what its strand has handled. -/
theorem Service.history (hnone : ∀ out ∈ cfg.outputs, ∀ p, Owns out p → disk p = none) (s : Service)
    (activities : List Activity) (events : List (ℕ × Event))
    (hlinked : (Service.started retryInterval serialize cfg disk).Linked retryInterval serialize cfg s
      activities events) (i : ℕ) (out : OutputConfig) (hi : cfg.outputs[i]? = some out)
    (hpos : 0 < out.maxFiles) :
    ∃ older kept current, Ordered out serialize ((s.sinks.world i).inside out) older kept current ∧
      ((older ++ kept).flatten ++ current).map Prod.fst =
        ((s.pipeline.handled (.sink i)).map Datagram.message).filter fun msg => accepts out msg := by
  have hlt : i < cfg.outputs.length := (List.getElem?_eq_some_iff.mp hi).1
  have hout := List.mem_of_getElem? hi
  have hworking : ∀ e ∈ eventsOf i events, Working e := by
    intro e he
    obtain ⟨e', he', rfl⟩ := List.mem_map.mp he
    exact hlinked.working e' (List.mem_of_mem_filter he')
  -- the run of the section alone, from its opening on
  have hown : (s.sinks.world i).inside out = Output.run out retryInterval serialize
      ((Sinks.world { disk := disk } i).inside out) (.start true .fine :: eventsOf i events) := by
    have hrun := Sinks.run_own retryInterval serialize hseparate { disk := disk } ⟨rfl,
      fun _ _ _ _ h => by cases h⟩ (openings cfg ++ events) (fun e he => ?_) i out hi
    · rw [eventsOf_append, eventsOf_openings cfg i hlt] at hrun
      rw [hlinked.sinks]
      unfold Sinks.run at hrun
      rw [List.foldl_append] at hrun
      exact hrun
    · rcases List.mem_append.mp he with he | he
      · obtain ⟨k, -, rfl⟩ := List.mem_map.mp he
        exact fun _ => rfl
      · exact (hlinked.working e he).lives
  have hdisk : ∀ p, ((Sinks.world { disk := disk } i).inside out).disk p = none := by
    intro p
    change inside out disk p = none
    unfold inside
    split_ifs with hp
    · exact hnone out hout p hp
    · rfl
  obtain ⟨groups, current, heq, htracks⟩ := run_tracks retryInterval (hseparate.apart out hout) hpos
    (.start true .fine :: eventsOf i events)
    (fun e he => by
      rcases List.mem_cons.mp he with rfl | he
      · exact fun _ => rfl
      · exact (hworking e he).fine)
    true ((Sinks.world { disk := disk } i).inside out) (fun _ => ⟨fun h => (by cases h),
      fun _ => .inl fun _ => ⟨rfl, rfl⟩⟩)
    ⟨rfl, fun _ => ⟨rfl, rfl, rfl⟩, fun h => by cases h⟩ [] [] (tracks_none serialize out _ hdisk rfl)
  rw [← hown] at htracks
  refine ⟨_, _, current, htracks.ordered hpos, ?_⟩
  change _ = [] ++ accepted out true (eventsOf i events) at heq
  rw [List.take_append_drop, heq, List.nil_append, accepted_working out _ hworking, ← hlinked.given i,
    List.filter_map]
  rfl

end Steps

/-- The messages of the datagrams that a section writes to its files. -/
def OutputConfig.wanted (out : OutputConfig) (ds : List Datagram) : List SyslogMessage :=
  (ds.map Datagram.message).filter fun msg => accepts out msg

theorem OutputConfig.wanted_append (out : OutputConfig) (ds es : List Datagram) :
    out.wanted (ds ++ es) = out.wanted ds ++ out.wanted es := by
  unfold OutputConfig.wanted
  rw [List.map_append, List.filter_append]

def Activity.isAbort : Activity → Bool
  | .abort _ => true
  | _ => false

/-- If no call of a sink fails: in every state, the files of a section (those given up by a rotation included)
hold each message that was admitted and routed to it once, but for the messages that are still on their way or
were lost with a handler that threw; with one worker, and no handler that throws, they hold them in the order
of arrival. When nothing is left to do, nothing is on its way. Files that belong to no section are never
touched. -/
theorem service_stores (retryInterval : ℕ) (serialize : List (Bytes × Option Bytes) → Bytes) (cfg : Config)
    (hseparate : cfg.Separate) (disk : Disk) (hnone : ∀ out ∈ cfg.outputs, ∀ p, Owns out p → disk p = none)
    (activities : List Activity) (hfine : ∀ t ∈ activities, t.Fine) (s : Service)
    (hrun : exec (Service.step retryInterval serialize cfg)
      (Service.started retryInterval serialize cfg disk) activities = some s) :
    (∀ i out, cfg.outputs[i]? = some out → 0 < out.maxFiles →
      let pending := s.pipeline.queued (.sink i) ++ s.pipeline.due cfg.posts (.sink i)
      let routed := s.pipeline.accepted.filter fun d => cfg.routed (.sink i) d
      ∃ older kept current, Ordered out serialize ((s.sinks.world i).inside out) older kept current ∧
        (((older ++ kept).flatten ++ current).map Prod.fst ++
          out.wanted (pending ++ s.pipeline.lost (.sink i))).Perm (out.wanted routed) ∧
        (cfg.workers = 1 → (∀ t ∈ activities, t.isAbort = false) →
          ((older ++ kept).flatten ++ current).map Prod.fst ++ out.wanted pending = out.wanted routed) ∧
        (0 < cfg.workers → s.pipeline.Idle cfg.posts cfg.workers → pending = [])) ∧
    ∀ p, (∀ out ∈ cfg.outputs, ¬ Owns out p) → s.sinks.disk p = disk p := by
  obtain ⟨events, hlinked⟩ := Service.run_linked retryInterval serialize _ s activities hfine
    (fun _ => rfl) hrun
  have hstart : (Sinks.run retryInterval serialize cfg { disk := disk } (openings cfg)).Fits cfg ∧
      ∀ p, (∀ out ∈ cfg.outputs, ¬ Owns out p) →
        (Sinks.run retryInterval serialize cfg { disk := disk } (openings cfg)).disk p = disk p := by
    refine Sinks.run_kept retryInterval serialize hseparate { disk := disk } ⟨rfl,
      fun _ _ _ _ h => by cases h⟩ _ fun e he => ?_
    obtain ⟨k, -, rfl⟩ := List.mem_map.mp he
    exact fun _ => rfl
  refine ⟨fun i out hi hpos => ?_, fun p hp => ?_⟩
  · obtain ⟨older, kept, current, hordered, hstored⟩ :=
      Service.history retryInterval serialize hseparate disk hnone s activities events hlinked i out hi hpos
    have hdelivers := Network.exec_delivers cfg.posts cfg.workers _ _ hlinked.moves (.sink i)
    rw [meant_routed] at hdelivers
    refine ⟨older, kept, current, hordered, ?_, fun hone habort => ?_, fun hworkers hidle => ?_⟩
    · have hperm := (hdelivers.map Datagram.message).filter fun msg => accepts out msg
      rw [hstored]
      change (out.wanted _ ++ out.wanted _).Perm (out.wanted _)
      rw [← OutputConfig.wanted_append]
      unfold Network.ledger at hperm
      rw [List.append_assoc, List.append_assoc, ← List.append_assoc (s.pipeline.queued (.sink i))] at hperm
      exact hperm
    · have hmoves := hlinked.moves
      rw [hone] at hmoves
      have horder := (Network.exec_ordered cfg.posts _ (fun m hm => ?_) _ hmoves).order (.sink i)
      · rw [meant_routed, List.append_assoc] at horder
        rw [hstored, ← horder]
        change out.wanted _ ++ out.wanted _ = out.wanted _
        rw [← OutputConfig.wanted_append]
      · obtain ⟨t, ht, hmove⟩ := List.mem_filterMap.mp hm
        have hno := habort t ht
        cases t with
        | abort k => cases hno
        | retry k plan => cases hmove
        | accept d => cases hmove; rfl
        | take => cases hmove; rfl
        | post k => cases hmove; rfl
        | write k rcv plan => cases hmove; rfl
        | forward => cases hmove; rfl
    · obtain ⟨hqueued, hdue⟩ := hidle.ledger cfg.posts cfg.workers hworkers (.sink i)
      rw [hqueued, hdue]
      rfl
  · rw [hlinked.sinks]
    have hkept := (Sinks.run_kept retryInterval serialize hseparate _ hstart.1 events fun e he =>
      (hlinked.working e he).lives).2 p hp
    exact hkept.trans (hstart.2 p hp)

/-- A mail goes to both sections, and is written to one of them. -/
def oneMail : List Activity := [.accept mailDatagram, .take, .post 0, .post 0, .write 1 [] .fine]

theorem service_stores_mail :
    ∃ s, exec (Service.step SinkRecovery.kRetryInterval jsonText twoSections)
        (Service.started SinkRecovery.kRetryInterval jsonText twoSections fun _ => none) oneMail = some s ∧
      s.pipeline.queued (.sink 0) = [mailDatagram] ∧ s.pipeline.handled (.sink 1) = [mailDatagram] ∧
      ∀ out, twoSections.outputs[1]? = some out → 0 < out.maxFiles → ∃ older kept current,
        Ordered out jsonText ((s.sinks.world 1).inside out) older kept current ∧
        (((older ++ kept).flatten ++ current).map Prod.fst ++
            out.wanted (s.pipeline.queued (.sink 1) ++ s.pipeline.due twoSections.posts (.sink 1) ++
              s.pipeline.lost (.sink 1))).Perm
          (out.wanted (s.pipeline.accepted.filter fun d => twoSections.routed (.sink 1) d)) := by
  have hmail : (exec (Service.step SinkRecovery.kRetryInterval jsonText twoSections)
      (Service.started SinkRecovery.kRetryInterval jsonText twoSections fun _ => none) oneMail).map
        (fun s => (s.pipeline.queued (.sink 0), s.pipeline.handled (.sink 1))) =
          some ([mailDatagram], [mailDatagram]) := by
    decide +kernel
  obtain ⟨s, hs, hstrands⟩ := Option.map_eq_some_iff.mp hmail
  refine ⟨s, hs, congrArg Prod.fst hstrands, congrArg Prod.snd hstrands, fun out hout hpos => ?_⟩
  have hfine : ∀ t ∈ oneMail, t.Fine := by
    intro t ht
    simp only [oneMail, List.mem_cons, List.not_mem_nil, or_false] at ht
    obtain rfl | rfl | rfl | rfl | rfl := ht
    · trivial
    · trivial
    · trivial
    · trivial
    · exact fun _ => rfl
  obtain ⟨older, kept, current, hordered, hperm, -⟩ :=
    (service_stores SinkRecovery.kRetryInterval jsonText twoSections separate_twoSections (fun _ => none)
      (fun _ _ _ _ => rfl) oneMail hfine s hs).1 1 out hout hpos
  exact ⟨older, kept, current, hordered, hperm⟩

end Minilog.Server
