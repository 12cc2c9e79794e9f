import Minilog.Output.WholeLines

/-! A sink without faults.

The accepted messages form groups, one for each file: the groups that were given up, those of the generations,
oldest first, and the one of the active file. Both chains have the same groups, so generation `n` of one chain
holds the lines of the messages that generation `n` of the other one holds. -/
namespace Minilog.Output
open Lib Lib.Effect
open Minilog.Parser Minilog.Server
set_option autoImplicit false

/-- A message and the time it was written at. -/
abbrev Received := SyslogMessage × Bytes

section History

variable (cfg : OutputConfig) (serialize : List (Bytes × Option Bytes) → Bytes)

/-- The lines of a group of messages in a chain. -/
def content (c : Chain) (group : List Received) : Bytes := group.flatMap fun m => c.line serialize m.1 m.2

theorem content_append (c : Chain) (g h : List Received) :
    content serialize c (g ++ h) = content serialize c g ++ content serialize c h := List.flatMap_append ..

theorem content_ne_nil (c : Chain) (g : List Received) (hg : g ≠ []) : content serialize c g ≠ [] := by
  obtain ⟨m, rest, rfl⟩ := List.exists_cons_of_ne_nil hg
  unfold content
  rw [List.flatMap_cons]
  intro h
  have hline := (List.append_eq_nil_iff.mp h).1
  cases c with
  | text => exact absurd hline (by simp [Chain.line])
  | jsonl => exact absurd hline (by simp [Chain.line])

/-- No call fails in the handler of the event. -/
def Event.Fine : Event → Prop
  | .start _ plan => plan.AllOk
  | .write _ _ plan => plan.AllOk
  | .retry plan => plan.AllOk
  | .close => True

/-- The sink takes messages after the event. -/
def Event.live (live : Bool) : Event → Bool
  | .start .. => true
  | .close => false
  | _ => live

/-- The messages of an event that are accepted. -/
def Event.accepted (live : Bool) : Event → List Received
  | .write msg rcv _ => if live && accepts cfg msg then [(msg, rcv)] else []
  | _ => []

/-- The messages a sink accepts: those it takes at all, between its start and its end. -/
def accepted : Bool → List Event → List Received
  | _, [] => []
  | live, e :: events => e.accepted cfg live ++ accepted (e.live live) events

/-! ## The files of a chain -/

/-- The files hold the groups `groups`, as far as `max_files` reaches, and `current`. -/
structure Tracks (a : Archive) (groups : List (List Received)) (current : List Received) : Prop where
  filled : ∀ c, Chain.Configured cfg c → Filled cfg (a.slots c) (min groups.length cfg.maxFiles)
  archived : ∀ c, Chain.Configured cfg c → archived cfg c a = groups.map (content serialize c)
  active : ∀ c, Chain.Configured cfg c → active c a = content serialize c current
  outside : a.outside = fun _ => none

variable {cfg} {serialize}

theorem Opened.tracks {a a' : Archive} {groups : List (List Received)} {current : List Received}
    (h : Opened a a') (ht : Tracks cfg serialize a groups current) :
    Tracks cfg serialize a' groups current where
  filled c hc := h.filled cfg c _ (ht.filled c hc)
  archived c hc := (h.archived cfg c).trans (ht.archived c hc)
  active c hc := (h.active c).trans (ht.active c hc)
  outside := h.outside.trans ht.outside

theorem Appended.tracks {plan : Plan} {a a₂ a₃ : Archive} {groups : List (List Received)}
    {current : List Received} {msg : SyslogMessage} {rcv : Bytes}
    (ht : Tracks cfg serialize a groups current)
    (htext : Appended cfg plan .text (Chain.line serialize .text msg rcv) a true a₂)
    (hjsonl : Appended cfg plan .jsonl (Chain.line serialize .jsonl msg rcv) a₂ true a₃) :
    Tracks cfg serialize a₃ groups (current ++ [(msg, rcv)]) := by
  -- one chain: its line is appended, its generations stay
  have hown : ∀ (c : Chain) (b b' : Archive), Chain.Configured cfg c →
      Appended cfg plan c (c.line serialize msg rcv) b true b' →
      (∀ n, n ≠ 0 → b'.slots c n = b.slots c n) ∧ Output.archived cfg c b' = Output.archived cfg c b ∧
        Output.active c b' = Output.active c b ++ c.line serialize msg rcv ∧ b'.outside = b.outside := by
    intro c b b' hc happ
    cases happ with
    | absent hn => exact absurd hc hn
    | whole old _ hold =>
      refine ⟨fun n hn => ?_, ?_, ?_, rfl⟩
      · rw [put_slots, Slots.set_other _ _ _ _ hn]
        rfl
      · rw [archived_put]
        unfold Output.archived
        change Output.gone c (b.trace ++ [.wrote c (c.line serialize msg rcv)]) ++ _ = _
        rw [gone_wrote]
        rfl
      · rw [active_put]
        unfold Output.active
        rw [hold]
        rfl
  have hline : ∀ c : Chain, content serialize c [(msg, rcv)] = c.line serialize msg rcv := by
    intro c
    simp [content]
  have houtside : ∀ (c : Chain) (b b' : Archive) done,
      Appended cfg plan c (c.line serialize msg rcv) b done b' →
      b'.outside = b.outside := by
    intro c b b' done happ
    cases happ with
    | absent hn => rfl
    | whole old _ hold => rfl
    | untouched => rfl
    | torn old _ hold hbad => rfl
  have hchain : ∀ c, Chain.Configured cfg c → Filled cfg (a₃.slots c) (min groups.length cfg.maxFiles) ∧
      Output.archived cfg c a₃ = groups.map (content serialize c) ∧
      Output.active c a₃ = content serialize c (current ++ [(msg, rcv)]) := by
    intro c hc
    rw [content_append, hline]
    cases c with
    | text =>
      obtain ⟨hslots, harchived, hactive, -⟩ := hown .text a a₂ hc htext
      obtain ⟨hslots', hgone', -⟩ := hjsonl.other .text (by decide)
      refine ⟨?_, ?_, ?_⟩
      · rw [hslots']
        exact (ht.filled .text hc).congr hslots
      · rw [← ht.archived .text hc, ← harchived]
        unfold Output.archived
        rw [hslots', hgone']
      · rw [← ht.active .text hc, ← hactive]
        unfold Output.active
        rw [hslots']
    | jsonl =>
      obtain ⟨hslots, harchived, hactive, -⟩ := hown .jsonl a₂ a₃ hc hjsonl
      obtain ⟨hslots', hgone', -⟩ := htext.other .jsonl (by decide)
      refine ⟨?_, ?_, ?_⟩
      · rw [hslots'] at hslots
        exact (ht.filled .jsonl hc).congr hslots
      · rw [harchived, ← ht.archived .jsonl hc]
        unfold Output.archived
        rw [hslots', hgone']
      · rw [hactive, ← ht.active .jsonl hc]
        unfold Output.active
        rw [hslots']
  exact ⟨fun c hc => (hchain c hc).1, fun c hc => (hchain c hc).2.1, fun c hc => (hchain c hc).2.2,
    (houtside .jsonl a₂ a₃ true hjsonl).trans ((houtside .text a a₂ true htext).trans ht.outside)⟩

/-- A rotation closes the current group. -/
theorem Rotated.tracks {plan : Plan} (hok : plan.AllOk) (hpos : 0 < cfg.maxFiles) {w w' : World}
    (h : Rotated cfg plan true w w') {groups : List (List Received)} {current : List Received}
    (hcurrent : current ≠ []) (ht : Tracks cfg serialize (w.archive cfg) groups current) :
    Tracks cfg serialize (w'.archive cfg) (groups ++ [current]) [] := by
  obtain ⟨w₁, w₂, text, jsonl, htext, hjsonl, ho, hdone⟩ := h
  obtain ⟨rfl, rfl⟩ := hdone rfl
  have hslot : ∀ c, Chain.Configured cfg c →
      (w.archive cfg).slots c 0 = some (content serialize c current) := by
    intro c hc
    have hactive := ht.active c hc
    have hne := content_ne_nil serialize c current hcurrent
    unfold Output.active at hactive
    cases hs : (w.archive cfg).slots c 0 with
    | none =>
      rw [hs] at hactive
      exact absurd hactive.symm hne
    | some b =>
      rw [hs] at hactive
      exact congrArg some hactive
  -- one chain, between its own start and end
  have hstage : ∀ (c : Chain) (u u' : World), Stage cfg plan c true u u' → Chain.Configured cfg c →
      (u.archive cfg).slots c = (w.archive cfg).slots c → Output.gone c u.trace = Output.gone c w.trace →
      Filled cfg ((u'.archive cfg).slots c) (min (groups ++ [current]).length cfg.maxFiles) ∧
        Output.archived cfg c (u'.archive cfg) = (groups ++ [current]).map (content serialize c) ∧
        (u'.archive cfg).slots c 0 = none := by
    intro c u u' hst hc hslots hgone
    have harchived : Output.archived cfg c (u.archive cfg) = groups.map (content serialize c) := by
      rw [← ht.archived c hc]
      unfold Output.archived
      rw [hslots]
      exact congrArg (· ++ _) hgone
    have hfilled : Filled cfg ((u.archive cfg).slots c) (min groups.length cfg.maxFiles) :=
      hslots ▸ ht.filled c hc
    have hfull : (u.archive cfg).slots c 0 = some (content serialize c current) := hslots ▸ hslot c hc
    obtain ⟨⟨k', hf', hk'⟩, -⟩ :=
      hst.filled hc hpos _ hfilled ⟨_, hfull, content_ne_nil serialize c current hcurrent⟩
      (steady_of_allOk cfg plan _ c hok)
    obtain ⟨hmoved, hnone⟩ := hst.moved rfl hc
    refine ⟨?_, ?_, hnone⟩
    · rw [hk' rfl] at hf'
      have hmin : min (groups ++ [current]).length cfg.maxFiles =
          min (min groups.length cfg.maxFiles + 1) cfg.maxFiles := by
        rw [List.length_append, List.length_singleton]
        omega
      rw [hmin]
      exact hf'
    · rw [hmoved, harchived, hfull, List.map_append]
      rfl
  have hchain : ∀ c, Chain.Configured cfg c →
      Filled cfg ((w₂.archive cfg).slots c) (min (groups ++ [current]).length cfg.maxFiles) ∧
        Output.archived cfg c (w₂.archive cfg) = (groups ++ [current]).map (content serialize c) ∧
        (w₂.archive cfg).slots c 0 = none := by
    intro c hc
    cases c with
    | text =>
      have hslots := hjsonl.aged.frame.slots .text (by decide)
      have hgone := hjsonl.aged.frame.gone .text (by decide)
      obtain ⟨hf, ha, hn⟩ := hstage .text w w₁ htext hc rfl rfl
      refine ⟨by rw [hslots]; exact hf, ?_, by rw [hslots]; exact hn⟩
      rw [← ha]
      unfold Output.archived
      rw [hslots, hgone]
    | jsonl =>
      exact hstage .jsonl w₁ w₂ hjsonl hc (htext.aged.frame.slots .jsonl (by decide))
        (htext.aged.frame.gone .jsonl (by decide))
  have htracks : Tracks cfg serialize (w₂.archive cfg) (groups ++ [current]) [] := by
    refine ⟨fun c hc => (hchain c hc).1, fun c hc => (hchain c hc).2.1, fun c hc => ?_, ?_⟩
    · unfold Output.active
      rw [(hchain c hc).2.2]
      rfl
    · exact hjsonl.aged.frame.outside.trans (htext.aged.frame.outside.trans ht.outside)
  exact ho.tracks htracks

/-- What a message does to the groups. -/
theorem Written.tracks {plan : Plan} (hok : plan.AllOk) (hpos : 0 < cfg.maxFiles) {msg : SyslogMessage}
    {rcv : Bytes} {w v : World} (h : Written cfg serialize plan msg rcv w v true)
    {groups : List (List Received)} {current : List Received}
    (ht : Tracks cfg serialize (w.archive cfg) groups current) :
    ∃ groups' current', groups'.flatten ++ current' = groups.flatten ++ current ++ [(msg, rcv)] ∧
      Tracks cfg serialize (v.archive cfg) groups' current' := by
  generalize hdone : true = done at h
  cases h with
  | stopped hp => cases hdone
  | wrote w₁ a₂ text jsonl hp hready htext hjsonl =>
    obtain ⟨rfl, rfl⟩ : text = true ∧ jsonl = true := by simpa using hdone.symm
    by_cases hdue : Due cfg (w.archive cfg)
    · obtain ⟨w₀, ho, hr⟩ := hp.due hdue
      have hcurrent : current ≠ [] := by
        intro hnil
        obtain ⟨hmax, c, b, hb, hlen⟩ := hdue
        have hc : c.Configured cfg := by
          by_contra hn
          have habsent : (w.archive cfg).slots c 0 = none := slots_absent cfg w.disk c 0 hn
          rw [habsent] at hb
          cases hb
        have hactive := ht.active c hc
        unfold Output.active at hactive
        rw [hb, hnil] at hactive
        rw [show b = [] from hactive, List.length_nil] at hlen
        omega
      refine ⟨groups ++ [current], [(msg, rcv)], ?_,
        Appended.tracks (hr.tracks hok hpos hcurrent (ho.tracks ht)) htext hjsonl⟩
      rw [List.flatten_append]
      simp
    · exact ⟨groups, current ++ [(msg, rcv)], by rw [List.append_assoc],
        Appended.tracks ((hp.notDue hdue).tracks ht) htext hjsonl⟩

/-! ## Runs -/

/-- Whether the sink takes messages, and that no retry is pending. -/
def Flag (live : Bool) (w : World) : Prop :=
  w.sink.retryArmed = false ∧ (live = true → Live w) ∧ (live = false → w.running = true → w.sink.closed = true)

theorem Flag.takes {live : Bool} {w : World} (h : Flag live w) (hrun : w.running = true) (msg : SyslogMessage) :
    Takes cfg w msg ↔ (live && accepts cfg msg) = true := by
  unfold Takes
  cases live with
  | false =>
    rw [h.2.2 rfl hrun]
    simp
  | true =>
    rw [hrun, (h.2.1 rfl).2.1]
    simp

theorem step_eq (retryInterval : ℕ) (e : Event) (w v : World) (hrun : e.isStart = false → w.running = true)
    (h : handler cfg retryInterval serialize e w = (.ok (), v)) : step cfg retryInterval serialize w e = v := by
  unfold step
  rw [if_neg, h]
  rintro ⟨hstopped, hstart⟩
  rw [hrun hstart] at hstopped
  cases hstopped

/-- One event without faults. -/
theorem step_fine (retryInterval : ℕ) (hapart : Apart cfg) (hpos : 0 < cfg.maxFiles) (live : Bool)
    (e : Event) (he : e.Fine) (w : World) (hs : Sound cfg w) (hf : Flag live w)
    (groups : List (List Received)) (current : List Received)
    (ht : Tracks cfg serialize (w.archive cfg) groups current) :
    Flag (e.live live) (step cfg retryInterval serialize w e) ∧
      ∃ groups' current', groups'.flatten ++ current' = groups.flatten ++ current ++ e.accepted cfg live ∧
        Tracks cfg serialize ((step cfg retryInterval serialize w e).archive cfg) groups' current' := by
  have hsame : Tracks cfg serialize (w.archive cfg) groups current →
      ∃ groups' current', groups'.flatten ++ current' = groups.flatten ++ current ++ [] ∧
        Tracks cfg serialize (w.archive cfg) groups' current' :=
    fun ht => ⟨groups, current, (List.append_nil _).symm, ht⟩
  by_cases hidle : w.running = false ∧ e.isStart = false
  · -- nothing happens without a process
    have hstep : step cfg retryInterval serialize w e = w := if_pos hidle
    have hlive : live = false := by
      by_contra hl
      have hrun := (hf.2.1 (by simpa using hl)).1
      rw [hidle.1] at hrun
      cases hrun
    subst hlive
    rw [hstep]
    cases e with
    | start openNow plan => cases hidle.2
    | write msg rcv plan => exact ⟨hf, hsame ht⟩
    | retry plan => exact ⟨hf, hsame ht⟩
    | close => exact ⟨hf, hsame ht⟩
  · have hrun : e.isStart = false → w.running = true := by
      intro hstart
      by_contra hr
      exact hidle ⟨by simpa using hr, hstart⟩
    cases e with
    | start openNow plan =>
      obtain ⟨_, v, hv, hopened, -, hlive⟩ :=
        wp_returns _ _ _ _ (start_spec cfg retryInterval serialize hapart plan openNow w)
        fun _ _ h => h.2 he
      have hlv := hlive he
      rw [step_eq retryInterval _ w v hrun hv]
      exact ⟨⟨hlv.2.2, fun _ => hlv, fun h => by cases h⟩, groups, current, (List.append_nil _).symm,
        Opened.tracks hopened ht⟩
    | write msg rcv plan =>
      obtain ⟨_, v, hv, -, -, hfine⟩ := wp_returns _ _ _ _
        (write_spec cfg retryInterval serialize hapart plan msg rcv w hs (hrun rfl)) fun _ _ h => h.2 he
      obtain ⟨hyes, hno⟩ := hfine he
      have htakes : Takes cfg w msg ↔ _ := hf.takes (hrun rfl) msg
      rw [step_eq retryInterval _ w v hrun hv]
      simp only [Event.accepted, Event.live]
      by_cases htk : Takes cfg w msg
      · obtain ⟨hlv, hwritten⟩ := hyes htk
        have hboth := htakes.mp htk
        have hl : live = true := by
          rw [Bool.and_eq_true] at hboth
          exact hboth.1
        rw [if_pos hboth]
        exact ⟨⟨hlv.2.2, fun _ => hlv, fun h => by rw [hl] at h; cases h⟩, hwritten.tracks he hpos ht⟩
      · rw [if_neg fun h => htk (htakes.mpr h), hno htk]
        exact ⟨hf, hsame ht⟩
    | retry plan =>
      obtain ⟨_, v, hv, -, -, hidle⟩ := wp_returns _ _ _ _
        (retry_spec cfg retryInterval serialize hapart plan w hs (hrun rfl)) fun _ _ h => by
          have hfalse := h.2
          rw [hf.1] at hfalse
          cases hfalse
      rw [step_eq retryInterval _ w v hrun hv, hidle hf.1]
      exact ⟨hf, hsame ht⟩
    | close =>
      obtain ⟨_, v, hv, hopened, -, -, hclosed, harmed⟩ :=
        wp_returns _ _ _ _ (close_spec cfg retryInterval serialize w)
        fun _ _ h => h
      rw [step_eq retryInterval _ w v hrun hv]
      exact ⟨⟨harmed, fun h => (by cases h), fun _ _ => hclosed⟩, groups, current, (List.append_nil _).symm,
        Opened.tracks hopened ht⟩

theorem run_tracks (retryInterval : ℕ) (hapart : Apart cfg) (hpos : 0 < cfg.maxFiles) (events : List Event)
    (hfine : ∀ e ∈ events, e.Fine) (live : Bool) (w : World) (hs : Sound cfg w) (hf : Flag live w)
    (groups : List (List Received)) (current : List Received)
    (ht : Tracks cfg serialize (w.archive cfg) groups current) :
    ∃ groups' current', groups'.flatten ++ current' = groups.flatten ++ current ++ accepted cfg live events ∧
      Tracks cfg serialize ((run cfg retryInterval serialize w events).archive cfg) groups' current' := by
  induction events generalizing live w groups current with
  | nil => exact ⟨groups, current, (List.append_nil _).symm, ht⟩
  | cons e events ih =>
    obtain ⟨hf', groups₁, current₁, heq, ht'⟩ :=
      step_fine retryInterval hapart hpos live e (hfine e List.mem_cons_self) w hs hf groups current ht
    have hs' := (step_cases cfg retryInterval serialize hapart e w hs).1
    obtain ⟨groups₂, current₂, heq', ht''⟩ :=
      ih (fun e' he' => hfine e' (List.mem_cons_of_mem e he')) (e.live live) _ hs' hf' groups₁ current₁ ht'
    refine ⟨groups₂, current₂, ?_, ht''⟩
    rw [heq', heq, List.append_assoc]
    rfl

/-- The files of a sink as groups of messages: `older` were given up, `kept` are the generations, oldest
first, and `current` is in the active file. -/
structure Ordered (cfg : OutputConfig) (serialize : List (Bytes × Option Bytes) → Bytes) (w : World)
    (older kept : List (List Received)) (current : List Received) : Prop where
  bounded : kept.length ≤ cfg.maxFiles
  generation : ∀ c, Chain.Configured cfg c → ∀ n, 1 ≤ n → n ≤ cfg.maxFiles →
    w.disk (c.path cfg n) = (kept.reverse[n - 1]?).map (content serialize c)
  active : ∀ c, Chain.Configured cfg c → (w.disk (c.file cfg)).getD [] = content serialize c current
  dropped : ∀ c, Chain.Configured cfg c → gone c w.trace = older.map (content serialize c)
  /-- The files of a chain, from its oldest generation on. -/
  joined : ∀ c, Chain.Configured cfg c →
    ((slots cfg w.disk c).listing (cfg.maxFiles + 1)).flatten = content serialize c (kept.flatten ++ current)
  /-- There are no other files. -/
  only : ∀ p, w.disk p ≠ none → ∃ c n, Chain.Configured cfg c ∧ n ≤ kept.length ∧ p = c.path cfg n

theorem content_flatten (c : Chain) (groups : List (List Received)) :
    (groups.map (content serialize c)).flatten = content serialize c groups.flatten := by
  induction groups with
  | nil => rfl
  | cons g groups ih => rw [List.map_cons, List.flatten_cons, List.flatten_cons, content_append, ih]

theorem Tracks.ordered {w : World} {groups : List (List Received)} {current : List Received}
    (hpos : 0 < cfg.maxFiles) (h : Tracks cfg serialize (w.archive cfg) groups current) :
    Ordered cfg serialize w (groups.take (groups.length - cfg.maxFiles))
    (groups.drop (groups.length - cfg.maxFiles)) current := by
  have hdepth := depth_pos cfg hpos
  have hlen : (groups.drop (groups.length - cfg.maxFiles)).length = min groups.length cfg.maxFiles := by
    rw [List.length_drop]
    omega
  have hfull : ∀ c, Chain.Configured cfg c →
      (((slots cfg w.disk c).set 0 none).listing (depth cfg + 1)).length = min groups.length cfg.maxFiles ∧
        ∀ m, 1 ≤ m → m ≤ min groups.length cfg.maxFiles →
          (((slots cfg w.disk c).set 0 none).listing (depth cfg + 1))[min groups.length cfg.maxFiles - m]? =
            (slots cfg w.disk c).set 0 none m := by
    intro c hc
    have hf := h.filled c hc
    refine Slots.listing_full _ _ _ (by omega) (Slots.set_same ..) (fun m hm hm' => ?_) (fun m hm hm' => ?_)
    · rw [Slots.set_other _ _ _ _ (by omega)]
      exact hf.used m hm hm'
    · rw [Slots.set_other _ _ _ _ (by omega)]
      exact hf.2.2 m hm
  -- the generations of a chain are the last groups
  have hchain : ∀ c, Chain.Configured cfg c →
      gone c w.trace = (groups.take (groups.length - cfg.maxFiles)).map (content serialize c) ∧
      ((slots cfg w.disk c).set 0 none).listing (depth cfg + 1) =
        (groups.drop (groups.length - cfg.maxFiles)).map (content serialize c) := by
    intro c hc
    have harchived : gone c w.trace ++ ((slots cfg w.disk c).set 0 none).listing (depth cfg + 1) =
        (groups.take (groups.length - cfg.maxFiles)).map (content serialize c) ++
          (groups.drop (groups.length - cfg.maxFiles)).map (content serialize c) := by
      rw [← List.map_append, List.take_append_drop]
      exact h.archived c hc
    refine List.append_inj' harchived ?_
    rw [(hfull c hc).1, List.length_map, hlen]
  have hslot : ∀ c, Chain.Configured cfg c → ∀ n, n ≤ cfg.maxFiles →
      slots cfg w.disk c n = w.disk (c.path cfg n) :=
    fun c hc n hn => slots_apply cfg w.disk c n hc (by omega)
  refine ⟨by omega, ?_, ?_, fun c hc => (hchain c hc).1, ?_, ?_⟩
  · intro c hc n hn hle
    have hf := h.filled c hc
    rw [← hslot c hc n hle]
    by_cases hk : n ≤ min groups.length cfg.maxFiles
    · have hat := (hfull c hc).2 n hn hk
      rw [Slots.set_other _ _ _ _ (by omega), (hchain c hc).2, List.getElem?_map] at hat
      rw [← hat, List.getElem?_reverse (by omega), hlen]
      congr 2
      omega
    · rw [show slots cfg w.disk c n = none from hf.2.2 n (by omega),
        List.getElem?_eq_none (by rw [List.length_reverse]; omega)]
      rfl
  · intro c hc
    have hactive := h.active c hc
    unfold Output.active at hactive
    rw [← hactive]
    exact congrArg (Option.getD · []) (slots_active cfg w.disk c hc).symm
  · intro c hc
    have hactive := h.active c hc
    rw [show cfg.maxFiles + 1 = depth cfg + 1 by omega,
      Slots.listing_zero, (hchain c hc).2, List.flatten_append, content_flatten, content_append,
      ← hactive]
    congr 1
    unfold Output.active
    change ((slots cfg w.disk c 0).toList).flatten = (slots cfg w.disk c 0).getD []
    cases slots cfg w.disk c 0 with
    | none => rfl
    | some b => simp
  · intro p hp
    by_cases howns : Owns cfg p
    · obtain ⟨c, n, hc, hn, rfl⟩ := howns
      refine ⟨c, n, hc, ?_, rfl⟩
      by_contra hlt
      rw [hlen] at hlt
      have hnone : slots cfg w.disk c n = none := (h.filled c hc).2.2 n (by omega)
      rw [hslot c hc n (by omega)] at hnone
      exact hp hnone
    · have hnone := congrFun h.outside p
      have hout : (w.archive cfg).outside p = w.disk p := if_neg howns
      rw [hout] at hnone
      exact absurd hnone hp

/-- In every run without faults that starts without files, the accepted messages are, in order, those that
were given up with whole generations, those of the generations and those of the active file, for both chains
alike. -/
theorem run_history (retryInterval : ℕ) (hfiles : Separated cfg) (hpos : 0 < cfg.maxFiles) (events : List Event)
    (hfine : ∀ e ∈ events, e.Fine) :
    ∃ older kept current, accepted cfg false events = (older ++ kept).flatten ++ current ∧
      Ordered cfg serialize (run cfg retryInterval serialize blank events) older kept current := by
  have hnone : ∀ c n, slots cfg blank.disk c n = none := by
    intro c n
    unfold slots
    split
    · rfl
    · rfl
  have hblank : Tracks cfg serialize (blank.archive cfg) [] [] := by
    refine ⟨fun c _ => ⟨Nat.min_le_right _ _, fun n hn hn' => ?_, fun n _ => hnone c n⟩, ?_, ?_, ?_⟩
    · rw [List.length_nil, Nat.zero_min] at hn'
      omega
    · intro c _
      have hempty : ∀ n, Slots.listing (fun _ => none : Slots Bytes) n = [] := by
        intro n
        induction n with
        | zero => rfl
        | succ n ih =>
          rw [Slots.listing, ih]
          rfl
      have hset : (slots cfg blank.disk c).set 0 none = fun _ => none := by
        funext n
        by_cases hn : n = 0
        · rw [hn, Slots.set_same]
        · rw [Slots.set_other _ _ _ _ hn, hnone c n]
      change ([] : List Bytes) ++ ((slots cfg blank.disk c).set 0 none).listing (depth cfg + 1) = []
      rw [hset, hempty]
      rfl
    · intro c _
      unfold Output.active
      rw [show (blank.archive cfg).slots c 0 = none from hnone c 0]
      rfl
    · funext p
      change outside cfg blank.disk p = none
      unfold outside
      split
      · rfl
      · rfl
  obtain ⟨groups, current, heq, ht⟩ := run_tracks retryInterval hfiles.apart hpos events hfine false
    blank (fun h => by cases h) ⟨rfl, fun h => (by cases h), fun _ h => (by cases h)⟩ [] [] hblank
  refine ⟨_, _, current, ?_, ht.ordered hpos⟩
  rw [List.take_append_drop, heq]
  rfl

end History

/-- Two messages, each of which fills the files, and a restart between them. -/
def twoMessages : List Event := [.start true .fine, sample "abcd", .close, .start true .fine, sample "efgh"]

theorem run_history_pair :
    ∃ older kept current, accepted pair false twoMessages = (older ++ kept).flatten ++ current ∧
      Ordered pair jsonText (run pair SinkRecovery.kRetryInterval jsonText blank twoMessages) older kept
      current := by
  refine run_history SinkRecovery.kRetryInterval separated_pair (by decide) twoMessages ?_
  intro e he
  simp only [twoMessages, sample, List.mem_cons, List.not_mem_nil, or_false] at he
  obtain rfl | rfl | rfl | rfl | rfl := he
  · exact fun _ => rfl
  · exact fun _ => rfl
  · trivial
  · exact fun _ => rfl
  · exact fun _ => rfl

/-- The second file is named like the first generation of the first one. -/
def shared : OutputConfig :=
  { name := ascii "main", textFile := ascii "/d/a.log", jsonlFile := ascii "/d/a.1.log", maxSize := 4,
    maxFiles := 2 }

/-- The rotation takes the active jsonl file for a generation of the text file and moves it away. -/
theorem run_history_shared :
    (run shared SinkRecovery.kRetryInterval jsonText blank twoMessages).disk (ascii "/d/a.2.log") =
        some (Chain.line jsonText .jsonl { raw := ascii "abcd" } []) ∧
      ¬ ∃ older kept current, accepted shared false twoMessages = (older ++ kept).flatten ++ current ∧
        Ordered shared jsonText (run shared SinkRecovery.kRetryInterval jsonText blank twoMessages) older
        kept current := by
  refine ⟨by decide +kernel, ?_⟩
  rintro ⟨older, kept, current, -, h⟩
  -- there is a second text generation, and no second jsonl generation
  have htext := h.generation .text (by decide) 2 (by decide) (by decide)
  have hjsonl := h.generation .jsonl (by decide) 2 (by decide) (by decide)
  have hsome : (run shared SinkRecovery.kRetryInterval jsonText blank twoMessages).disk
      (Chain.path shared .text 2) ≠ none := by
    decide +kernel
  have hnone : (run shared SinkRecovery.kRetryInterval jsonText blank twoMessages).disk
      (Chain.path shared .jsonl 2) = none := by
    decide +kernel
  rw [hnone, eq_comm, Option.map_eq_none_iff] at hjsonl
  rw [hjsonl] at htext
  exact hsome htext

end Minilog.Output
