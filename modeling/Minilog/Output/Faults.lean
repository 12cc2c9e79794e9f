import Mathlib.Algebra.Order.BigOperators.Group.Finset
import Minilog.Output.History

/-! What a sink leaves behind, whatever fails.

The messages leave pieces in a chain: each one a part of its line from the beginning, which is all of it, some
of it or nothing, and after a failed write a second one, which the close of the stream adds. A chain holds
these pieces in the order of the messages, however its files fail, are rotated half-way, or lose their process
(`run_pieces`). A limit on the size of the files holds in the same runs: a file grows past `max_size` by one
message's pieces at most, and there is one file for each generation (`run_within`). -/
namespace Minilog.Output
open Lib Lib.Effect
open Minilog.Parser Minilog.Server
set_option autoImplicit false

section Faults

variable (cfg : OutputConfig)

/-- All bytes a chain has held, oldest first. -/
def contents (c : Chain) (a : Archive) : Bytes := (history cfg c a).flatten

theorem contents_eq (c : Chain) (a : Archive) :
    contents cfg c a = (archived cfg c a).flatten ++ active c a := by
  unfold contents active
  rw [history_eq, List.flatten_append]
  cases a.slots c 0 with
  | none => rfl
  | some b => rw [Option.toList_some, List.flatten_singleton, Option.getD_some]

/-- No file of a chain, not even one that it has given up, is larger than `limit`. -/
def Within (limit : ℕ) (a : Archive) : Prop := ∀ c, ∀ b ∈ history cfg c a, b.length ≤ limit

/-! ## Opening and rotating -/

/-- Nothing is added to a chain and nothing is taken from it. -/
structure Preserved (a a' : Archive) : Prop where
  contents : ∀ c, contents cfg c a' = contents cfg c a
  within : ∀ limit, Within cfg limit a → Within cfg limit a'
  outside : a'.outside = a.outside

variable {cfg}

theorem Preserved.trans {a a' a'' : Archive} (h : Preserved cfg a a') (h' : Preserved cfg a' a'') :
    Preserved cfg a a'' where
  contents c := (h'.contents c).trans (h.contents c)
  within limit hw := h'.within limit (h.within limit hw)
  outside := h'.outside.trans h.outside

theorem Opened.preserved {a a' : Archive} (h : Opened a a') : Preserved cfg a a' where
  contents c := by
    rw [contents_eq, contents_eq, h.archived cfg c]
    exact congrArg _ (h.active c)
  within limit hw c b hb := by
    rw [history_eq, h.archived cfg c] at hb
    rcases List.mem_append.mp hb with hb | hb
    · exact hw c b (by rw [history_eq]; exact List.mem_append_left _ hb)
    · -- an active file that is new is empty
      rw [Option.mem_toList] at hb
      have hsame := h.active c
      rw [hb] at hsame
      cases hold : a.slots c 0 with
      | none =>
        rw [hold] at hsame
        rw [show b = [] from hsame]
        exact Nat.zero_le _
      | some old =>
        rw [hold] at hsame
        refine hw c b ?_
        rw [history_eq, hold, show b = old from hsame]
        simp
  outside := h.outside

theorem Aged.preserved {c : Chain} {w w' : World} (h : Aged cfg c w w') :
    Preserved cfg (w.archive cfg) (w'.archive cfg) := by
  have hhistory : ∀ d, history cfg d (w'.archive cfg) = history cfg d (w.archive cfg) := by
    intro d
    by_cases hd : d = c
    · rw [hd, history_eq, history_eq]
      cases h.contents with
      | inl h' => rw [h'.1, h'.2]
      | inr h' => rw [h'.1, h'.2, Option.toList_none, List.append_nil]
    · unfold history
      rw [h.frame.slots d hd, h.frame.gone d hd]
  refine ⟨fun d => ?_, fun limit hw d => ?_, h.frame.outside⟩
  · unfold Output.contents
    rw [hhistory d]
  · rw [hhistory d]
    exact hw d

theorem Prepared.preserved {plan : Plan} {done : Bool} {w w' : World} (h : Prepared cfg plan done w w') :
    Preserved cfg (w.archive cfg) (w'.archive cfg) := by
  by_cases hdue : Due cfg (w.archive cfg)
  · obtain ⟨w₁, ho, w₂, w₃, text, jsonl, ht, hj, ho', -⟩ := h.due hdue
    exact ho.preserved.trans (ht.aged.preserved.trans (hj.aged.preserved.trans ho'.preserved))
  · exact (h.notDue hdue).preserved

/-- What is written to has not reached `max_size`. -/
theorem Prepared.small {plan : Plan} {w w' : World} (h : Prepared cfg plan true w w')
    (hmax : cfg.maxSize ≠ 0) {c : Chain} (hc : c.Configured cfg) :
    (active c (w'.archive cfg)).length < cfg.maxSize := by
  by_cases hdue : Due cfg (w.archive cfg)
  · obtain ⟨w₁, -, hr⟩ := h.due hdue
    rw [hr.active hc, List.length_nil]
    omega
  · have hsame : active c (w'.archive cfg) = active c (w.archive cfg) := (h.notDue hdue).active c
    rw [hsame]
    by_contra hlarge
    unfold active at hlarge
    cases hslot : (w.archive cfg).slots c 0 with
    | none =>
      rw [hslot, Option.getD_none, List.length_nil] at hlarge
      omega
    | some b =>
      rw [hslot, Option.getD_some] at hlarge
      exact hdue ⟨hmax, c, b, hslot, by omega⟩

/-! ## Writing -/

theorem Appended.history_other {plan : Plan} {c : Chain} {line : Bytes} {done : Bool} {a a' : Archive}
    (h : Appended cfg plan c line a done a') (d : Chain) (hd : d ≠ c) : history cfg d a' = history cfg d a := by
  obtain ⟨hslots, hgone, -⟩ := h.other d hd
  unfold history
  rw [hslots, hgone]

/-- The active file with a piece more, of at most `n` bytes. -/
theorem Appended.longer {plan : Plan} {c : Chain} {line : Bytes} {done : Bool} {a a' : Archive}
    (h : Appended cfg plan c line a done a') (hc : c.Configured cfg) {content piece : Bytes}
    (hold : a.slots c 0 = some content) (hnew : a'.slots c 0 = some (content ++ piece))
    (harchived : archived cfg c a' = archived cfg c a) (n : ℕ) (hlen : piece.length ≤ n) :
    contents cfg c a' = contents cfg c a ++ piece ∧
      ∀ limit, Within cfg limit a → (c.Configured cfg → (active c a).length + n ≤ limit) →
        Within cfg limit a' := by
  have hactive : active c a = content := by unfold active; rw [hold]; rfl
  have hactive' : active c a' = content ++ piece := by unfold active; rw [hnew]; rfl
  refine ⟨by rw [contents_eq, contents_eq, harchived, hactive, hactive', List.append_assoc],
    fun limit hw hroom d b hb => ?_⟩
  by_cases hd : d = c
  · rw [hd, history_eq, harchived, hnew] at hb
    rcases List.mem_append.mp hb with hb | hb
    · exact hw c b (by rw [history_eq]; exact List.mem_append_left _ hb)
    · rw [Option.toList_some, List.mem_singleton] at hb
      have hle := hroom hc
      rw [hb, List.length_append]
      rw [hactive] at hle
      omega
  · rw [h.history_other d hd] at hb
    exact hw d b hb

/-- A write adds a first part of its line, and perhaps another one, to its own chain. -/
theorem Appended.piece {plan : Plan} {c : Chain} {line : Bytes} {done : Bool} {a a' : Archive}
    (h : Appended cfg plan c line a done a') :
    ∃ k j, contents cfg c a' = contents cfg c a ++ (line.take k ++ line.take j) ∧
      (∀ d, d ≠ c → contents cfg d a' = contents cfg d a) ∧ a'.outside = a.outside ∧
      ∀ limit, Within cfg limit a → (c.Configured cfg → (active c a).length + 2 * line.length ≤ limit) →
        Within cfg limit a' := by
  have hcontents : ∀ d, d ≠ c → contents cfg d a' = contents cfg d a := by
    intro d hd
    unfold contents
    rw [h.history_other d hd]
  cases h with
  | absent hc =>
    exact ⟨0, 0, by rw [List.take_zero, List.append_nil, List.append_nil], hcontents, rfl, fun _ hw _ => hw⟩
  | untouched =>
    exact ⟨0, 0, by rw [List.take_zero, List.append_nil, List.append_nil], hcontents, rfl, fun _ hw _ => hw⟩
  | whole content hc hold =>
    have harchived : archived cfg c ((a.add [.wrote c line]).put c 0 (some (content ++ line))) =
        archived cfg c a := by
      rw [archived_put]
      unfold archived
      change gone c (a.trace ++ [.wrote c line]) ++ _ = _
      rw [gone_wrote]
      rfl
    have happended : Appended cfg plan c line a true _ := .whole content hc hold
    obtain ⟨hc', hw'⟩ := happended.longer hc hold (by rw [put_slots, Slots.set_same]) harchived
      (2 * line.length) (by omega)
    exact ⟨line.length, 0, by rw [hc', List.take_length, List.take_zero, List.append_nil], hcontents, rfl, hw'⟩
  | torn content hc hold hbad =>
    obtain ⟨j, hj⟩ := plan.torn_eq c line
    have hlen : (plan.torn c line).length ≤ 2 * line.length := by
      rw [hj, List.length_append, List.length_take, List.length_take]
      omega
    have happended : Appended cfg plan c line a false _ := .torn content hc hold hbad
    obtain ⟨hc', hw'⟩ := happended.longer hc hold (by rw [put_slots, Slots.set_same]) (archived_put a _)
      (2 * line.length) hlen
    exact ⟨plan.written c, j, by rw [hc', hj], hcontents, rfl, hw'⟩

/-! ## Messages and pieces -/

/-- A message, how many bytes of its line came into each chain, and how many the close of the stream added. -/
structure Piece where
  msg : Received
  bytes : Chain → ℕ
  again : Chain → ℕ

variable (serialize : List (Bytes × Option Bytes) → Bytes)

def Piece.of (c : Chain) (p : Piece) : Bytes :=
  (c.line serialize p.msg.1 p.msg.2).take (p.bytes c) ++ (c.line serialize p.msg.1 p.msg.2).take (p.again c)

/-- Between `a` and `a'` the messages `sent` have left the pieces `ps`. -/
structure Left (cfg : OutputConfig) (serialize : List (Bytes × Option Bytes) → Bytes) (sent : List Received)
    (ps : List Piece) (a a' : Archive) : Prop where
  msgs : ps.map Piece.msg = sent
  contents : ∀ c, contents cfg c a' = contents cfg c a ++ ps.flatMap (Piece.of serialize c)
  outside : a'.outside = a.outside
  within : ∀ limit longest, cfg.maxSize ≠ 0 →
    (∀ m ∈ sent, ∀ c, Chain.Configured cfg c → (c.line serialize m.1 m.2).length ≤ longest) →
    cfg.maxSize + 2 * longest ≤ limit + 1 → Within cfg limit a → Within cfg limit a'

variable {serialize}

theorem Left.trans {sent sent' : List Received} {ps ps' : List Piece} {a a' a'' : Archive}
    (h : Left cfg serialize sent ps a a') (h' : Left cfg serialize sent' ps' a' a'') :
    Left cfg serialize (sent ++ sent') (ps ++ ps') a a'' where
  msgs := by rw [List.map_append, h.msgs, h'.msgs]
  contents c := by rw [h'.contents c, h.contents c, List.flatMap_append, List.append_assoc]
  outside := h'.outside.trans h.outside
  within limit longest hmax hline hroom hw :=
    h'.within limit longest hmax (fun m hm => hline m (List.mem_append_right _ hm)) hroom
      (h.within limit longest hmax (fun m hm => hline m (List.mem_append_left _ hm)) hroom hw)

/-- Messages that leave nothing. -/
theorem Preserved.left {a a' : Archive} (h : Preserved cfg a a') (sent : List Received) :
    Left cfg serialize sent (sent.map fun m => ⟨m, fun _ => 0, fun _ => 0⟩) a a' where
  msgs := by
    rw [List.map_map]
    exact List.map_id' sent
  contents c := by
    have hnil : (sent.map fun m => (⟨m, fun _ => 0, fun _ => 0⟩ : Piece)).flatMap (Piece.of serialize c) =
        [] := by
      refine List.flatMap_eq_nil_iff.mpr fun p hp => ?_
      obtain ⟨m, -, rfl⟩ := List.mem_map.mp hp
      unfold Piece.of
      rw [List.take_zero, List.append_nil]
    rw [h.contents c, hnil, List.append_nil]
  outside := h.outside
  within limit _ _ _ _ hw := h.within limit hw

/-- What one message leaves. -/
theorem Written.left {plan : Plan} {msg : SyslogMessage} {rcv : Bytes} {w v : World} {done : Bool}
    (h : Written cfg serialize plan msg rcv w v done) :
    ∃ ps, Left cfg serialize [(msg, rcv)] ps (w.archive cfg) (v.archive cfg) := by
  cases h with
  | stopped hp => exact ⟨_, hp.preserved.left _⟩
  | wrote w₁ a₂ text jsonl hp hready ht hj =>
    have hkept := hp.preserved
    obtain ⟨k, k', htext, htextOther, htextOutside, htextWithin⟩ := ht.piece
    obtain ⟨m, m', hjsonl, hjsonlOther, hjsonlOutside, hjsonlWithin⟩ := hj.piece
    refine ⟨[⟨(msg, rcv), fun c => c.casesOn k m, fun c => c.casesOn k' m'⟩], rfl, fun c => ?_,
      hjsonlOutside.trans (htextOutside.trans hkept.outside), fun limit longest hmax hline hroom hw => ?_⟩
    · rw [List.flatMap_singleton]
      cases c with
      | text => rw [hjsonlOther .text (by decide), htext, hkept.contents .text, Piece.of]
      | jsonl => rw [hjsonl, htextOther .jsonl (by decide), hkept.contents .jsonl, Piece.of]
    · have hroomFor : ∀ c, Chain.Configured cfg c →
          (active c (w₁.archive cfg)).length + 2 * (c.line serialize msg rcv).length ≤ limit := by
        intro c hc
        have hsmall := hp.small hmax hc
        have hlen : (c.line serialize msg rcv).length ≤ longest := hline _ List.mem_cons_self c hc
        omega
      have hsame : active .jsonl a₂ = active .jsonl (w₁.archive cfg) := by
        unfold active
        rw [(ht.other .jsonl (by decide)).1]
      refine hjsonlWithin limit (htextWithin limit (hkept.within limit hw) (hroomFor .text)) fun hc => ?_
      rw [hsame]
      exact hroomFor .jsonl hc

/-- What one event leaves. -/
theorem Handled.left {e : Event} {w v : World} (h : Handled cfg serialize e w v) :
    ∃ ps, Left cfg serialize (e.accepted cfg true) ps (w.archive cfg) (v.archive cfg) := by
  cases e with
  | start openNow plan => exact ⟨_, (Opened.preserved h).left _⟩
  | retry plan => exact ⟨_, (Opened.preserved h).left _⟩
  | close => exact ⟨_, (Opened.preserved h).left _⟩
  | write msg rcv plan =>
    cases h with
    | inl h =>
      obtain ⟨htakes, done, hwritten⟩ := h
      have hmsgs : Event.accepted cfg true (.write msg rcv plan) = [(msg, rcv)] := by
        change (if (true && accepts cfg msg) = true then [(msg, rcv)] else []) = _
        rw [Bool.true_and, if_pos htakes.2.2]
      rw [hmsgs]
      exact hwritten.left
    | inr h => exact ⟨_, (Opened.preserved h.2).left _⟩

/-! ## Runs -/

/-- The messages that a sink is to write, whether it can or not. -/
def offered (cfg : OutputConfig) (events : List Event) : List Received :=
  events.flatMap (Event.accepted cfg true)

variable (retryInterval : ℕ) (hapart : Apart cfg)

include hapart in
theorem run_left (events : List Event) (w : World) (hs : Sound cfg w) :
    ∃ ps, Left cfg serialize (offered cfg events) ps (w.archive cfg)
    ((run cfg retryInterval serialize w events).archive cfg) := by
  induction events generalizing w with
  | nil => exact ⟨[], rfl, fun c => (List.append_nil _).symm, rfl, fun _ _ _ _ _ hw => hw⟩
  | cons e events ih =>
    obtain ⟨hs', v, hv, hend⟩ := step_cases cfg retryInterval serialize hapart e w hs
    obtain ⟨ps, hleft⟩ := Handled.left hv
    obtain ⟨ps', hleft'⟩ := ih (step cfg retryInterval serialize w e) hs'
    refine ⟨ps ++ ps', Left.trans ?_ hleft'⟩
    -- that the process has ended does not show in the files
    cases hend with
    | inl h =>
      rw [h]
      exact hleft
    | inr h =>
      rw [h]
      exact ⟨hleft.msgs, hleft.contents, hleft.outside, hleft.within⟩

/-- A process that is not running yet. -/
theorem sound_stopped (w : World) (hstopped : w.running = false) : Sound cfg w := by
  intro hrun
  rw [hstopped] at hrun
  cases hrun

theorem card_owned (paths : Finset Bytes) (h : ∀ p ∈ paths, Owns cfg p) : paths.card ≤ 2 * (depth cfg + 1) := by
  have hsub : paths ⊆ (Finset.range (depth cfg + 1)).image (Chain.path cfg .text) ∪
      (Finset.range (depth cfg + 1)).image (Chain.path cfg .jsonl) := by
    intro p hp
    obtain ⟨c, n, -, hn, rfl⟩ := h p hp
    have hmem := Finset.mem_range.mpr (Nat.lt_succ_of_le hn)
    cases c with
    | text => exact Finset.mem_union_left _ (Finset.mem_image_of_mem _ hmem)
    | jsonl => exact Finset.mem_union_right _ (Finset.mem_image_of_mem _ hmem)
  have hcard : ∀ c : Chain, ((Finset.range (depth cfg + 1)).image (c.path cfg)).card ≤ depth cfg + 1 :=
    fun c => Finset.card_image_le.trans (Finset.card_range _).le
  have hunion := Finset.card_union_le ((Finset.range (depth cfg + 1)).image (Chain.path cfg .text))
    ((Finset.range (depth cfg + 1)).image (Chain.path cfg .jsonl))
  have hle := Finset.card_le_card hsub
  have htext := hcard .text
  have hjsonl := hcard .jsonl
  omega

/-- In every run, with any faults and any deaths of the process: no file of the sink grows larger than
`limit`, if it allows two lines more than `max_size` and no file was larger before; so the files of the sink
together are bounded. -/
theorem run_within (hfiles : Separated cfg) (hmax : cfg.maxSize ≠ 0) (limit longest : ℕ)
    (hroom : cfg.maxSize + 2 * longest ≤ limit + 1)
    (w : World) (hstopped : w.running = false) (htrace : w.trace = [])
    (hbefore : ∀ p b, Owns cfg p → w.disk p = some b → b.length ≤ limit) (events : List Event)
    (hlines : ∀ m ∈ offered cfg events, ∀ c, Chain.Configured cfg c →
      (c.line serialize m.1 m.2).length ≤ longest) :
    let w' := run cfg retryInterval serialize w events
    (∀ p b, Owns cfg p → w'.disk p = some b → b.length ≤ limit) ∧
    ∀ paths : Finset Bytes, (∀ p ∈ paths, Owns cfg p) →
      ∑ p ∈ paths, ((w'.disk p).getD []).length ≤ 2 * (depth cfg + 1) * limit := by
  intro w'
  obtain ⟨ps, hleft⟩ : ∃ ps, Left cfg serialize (offered cfg events) ps (w.archive cfg) (w'.archive cfg) :=
    run_left retryInterval hfiles.apart events w (sound_stopped w hstopped)
  have hstart : Within cfg limit (w.archive cfg) := by
    intro c b hb
    change b ∈ gone c w.trace ++ (slots cfg w.disk c).listing (depth cfg + 1) at hb
    rw [htrace] at hb
    obtain ⟨n, hn, hslot⟩ := (Slots.mem_listing _ _ _).mp hb
    unfold slots at hslot
    split_ifs at hslot with hc
    exact hbefore _ b ⟨c, n, hc.1, hc.2, rfl⟩ hslot
  have hwithin := hleft.within limit longest hmax hlines hroom hstart
  have hfile : ∀ p b, Owns cfg p → w'.disk p = some b → b.length ≤ limit := by
    rintro p b ⟨c, n, hc, hn, rfl⟩ hb
    refine hwithin c b (List.mem_append_right _ ((Slots.mem_listing _ _ _).mpr ⟨n, Nat.lt_succ_of_le hn, ?_⟩))
    exact (slots_apply cfg w'.disk c n hc hn).trans hb
  refine ⟨hfile, fun paths hpaths => ?_⟩
  have hsum := Finset.sum_le_card_nsmul paths (fun p => ((w'.disk p).getD []).length) limit fun p hp => ?_
  · refine hsum.trans ?_
    exact Nat.mul_le_mul_right limit (card_owned paths hpaths)
  · cases hb : w'.disk p with
    | none => exact Nat.zero_le _
    | some b => exact hfile p b (hpaths p hp) hb

end Faults

/-- The disk fills up after one byte of a line, and has room again when the stream is closed. -/
def refilled : List Event :=
  [.start true .fine, .write { raw := ascii "ab" } []
    { Plan.fault (.write .text) 1 with rewritten := fun _ => 3 }, .retry .fine, sample "cd"]

theorem run_within_full :
    ∑ p ∈ (Finset.range (depth pair + 1)).image (Chain.path pair .text) ∪
    (Finset.range (depth pair + 1)).image (Chain.path pair .jsonl),
      (((run pair SinkRecovery.kRetryInterval jsonText blank (fullDisk 1)).disk p).getD []).length ≤
      2 * (depth pair + 1) * 803 := by
  refine (run_within SinkRecovery.kRetryInterval separated_pair (by decide) 803 400
    (by decide) blank rfl rfl (fun _ _ _ h => by cases h) (fullDisk 1) ?_).2 _ fun p hp => ?_
  rotate_left
  · rcases Finset.mem_union.mp hp with hp | hp
    · obtain ⟨n, hn, rfl⟩ := Finset.mem_image.mp hp
      exact ⟨.text, n, by decide, Nat.le_of_lt_succ (Finset.mem_range.mp hn), rfl⟩
    · obtain ⟨n, hn, rfl⟩ := Finset.mem_image.mp hp
      exact ⟨.jsonl, n, by decide, Nat.le_of_lt_succ (Finset.mem_range.mp hn), rfl⟩
  have hall : (offered pair (fullDisk 1)).all
      (fun m => decide ((Chain.line jsonText .text m.1 m.2).length ≤ 400) &&
        decide ((Chain.line jsonText .jsonl m.1 m.2).length ≤ 400)) = true := by decide +kernel
  intro m hm c _
  have hboth := List.all_eq_true.mp hall m hm
  rw [Bool.and_eq_true, decide_eq_true_iff, decide_eq_true_iff] at hboth
  cases c with
  | text => exact hboth.1
  | jsonl => exact hboth.2

end Minilog.Output
