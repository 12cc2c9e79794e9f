import Minilog.Output.Opening

/-! What one handler of a sink does.

`step_cases` says it for every event and every fault: the active files that are missing may be created; a
message that is accepted may rotate the chains, if an active file has reached `max_size`, and then appends its
line to both of them or to neither, or stops on the way. `Sound` is the invariant of the sink between two
handlers. -/
namespace Minilog.Output
open Lib Lib.Effect
open Minilog.Parser Minilog.Server
set_option autoImplicit false

/-- Some active file has reached `max_size`. -/
def Due (cfg : OutputConfig) (a : Archive) : Prop :=
  cfg.maxSize ≠ 0 ∧ ∃ c content, a.slots c 0 = some content ∧ cfg.maxSize ≤ content.length

theorem Opened.due (cfg : OutputConfig) {a a' : Archive} (h : Opened a a') : Due cfg a' ↔ Due cfg a := by
  constructor
  · rintro ⟨hmax, c, content, hc, hlen⟩
    have hactive := h.active c
    rw [hc] at hactive
    cases hs : a.slots c 0 with
    | some old =>
      rw [hs] at hactive
      exact ⟨hmax, c, old, hs, by rw [← show content = old from hactive]; exact hlen⟩
    | none =>
      rw [hs] at hactive
      rw [show content = [] from hactive, List.length_nil] at hlen
      omega
  · rintro ⟨hmax, c, content, hc, hlen⟩
    exact ⟨hmax, c, content, by rw [h.kept c (by rw [hc]; exact Option.some_ne_none _), hc], hlen⟩

/-! ## Writing one line -/

section Handlers

variable (cfg : OutputConfig) (retryInterval : ℕ) (serialize : List (Bytes × Option Bytes) → Bytes)
  (plan : Plan)

/-- What a write leaves in the active file: the line, parts of it or nothing of it. -/
inductive Appended (c : Chain) (line : Bytes) (a : Archive) : Bool → Archive → Prop
  | absent (hc : ¬ c.Configured cfg) : Appended c line a true a
  | whole (content : Bytes) (hc : c.Configured cfg) (hold : a.slots c 0 = some content) :
    Appended c line a true ((a.add [.wrote c line]).put c 0 (some (content ++ line)))
  | untouched : Appended c line a false a
  | torn (content : Bytes) (hc : c.Configured cfg) (hold : a.slots c 0 = some content)
    (hbad : ¬ plan.Ok (.write c)) :
    Appended c line a false (a.put c 0 (some (content ++ plan.torn c line)))

variable (hapart : Apart cfg)

include hapart in
theorem writeChain_spec (c : Chain) (msg : SyslogMessage) (rcv : Bytes) (w : World) (hready : Ready cfg w)
    (hservice : InService w.sink) :
    wp (writeChain cfg retryInterval serialize plan c msg rcv)
      (fun ok w' => w'.running = w.running ∧
        Appended cfg plan c (c.line serialize msg rcv) (w.archive cfg) ok (w'.archive cfg) ∧
        (ok = true → Ready cfg w' ∧ InService w'.sink) ∧ (ok = false → Down w'.sink ∧ Calm w'.sink ∧ ¬ plan.AllOk))
      (fun _ w' => w'.running = w.running ∧
        Appended cfg plan c (c.line serialize msg rcv) (w.archive cfg) false (w'.archive cfg) ∧ Calm w'.sink ∧
        ¬ plan.AllOk) w := by
  have hcalm : ∀ s : LogFile, s.retryArmed = w.sink.retryArmed → Calm s := by
    intro s hs h
    rw [hs, hservice.2] at h
    cases h
  unfold writeChain
  simp only [wp_bind, wp_get]
  by_cases hc : c.Configured cfg
  · obtain ⟨hopen, hgood, content, hslot, hsize⟩ := (hready c).1 hc
    have hfile : w.disk (c.file cfg) = some content := (slots_active cfg w.disk c hc).symm.trans hslot
    -- the file with something appended
    have hput : ∀ (v : Bytes) (w₁ : World), w₁.disk = w.disk →
        World.archive cfg { w₁ with disk := Function.update w₁.disk (c.file cfg) (some v) } =
          (w₁.archive cfg).put c 0 (some v) := by
      intro v w₁ _
      exact archive_update cfg c 0 hapart hc (Nat.zero_le _) (some v) w₁
    have hwhole : Appended cfg plan c (c.line serialize msg rcv) (w.archive cfg) true
        (((w.archive cfg).add [.wrote c (c.line serialize msg rcv)]).put c 0
          (some (content ++ c.line serialize msg rcv))) :=
      .whole content hc hslot
    have htorn : ¬ plan.Ok (.write c) → Appended cfg plan c (c.line serialize msg rcv) (w.archive cfg) false
        (World.archive cfg { w with
          disk := Function.update w.disk (c.file cfg)
            (some (content ++ plan.torn c (c.line serialize msg rcv))) }) := by
      intro hbad
      rw [hput _ w rfl]
      exact .torn content hc hslot hbad
    rw [hopen]
    simp only [Bool.true_eq_false, if_false, wp_bind]
    apply reach_rule
    · unfold writeLine
      simp only [wp_bind, wp_get, hgood, Bool.true_eq_false, if_false, hfile, Option.getD_some]
      cases hout : plan.outcome (.write c) with
      | ok =>
        simp only [setFile, note, onSink, wp_bind, wp_modify, wp_pure, if_pos]
        have harchive := hput (content ++ c.line serialize msg rcv)
          { w with trace := w.trace ++ [.wrote c (c.line serialize msg rcv)] } rfl
        refine ⟨trivial, harchive ▸ hwhole, fun _ => ⟨?_, hservice⟩, fun h => by cases h⟩
        · intro d
          have hslots := congrArg Archive.slots harchive
          by_cases hd : d = c
          · refine ⟨fun _ => ⟨?_, ?_, content ++ c.line serialize msg rcv, ?_, ?_⟩, fun h => absurd (hd ▸ hc) h⟩
            · rw [hd]
              exact hopen
            · rw [hd]
              exact hgood
            · rw [hd]
              exact (congrFun (congrFun hslots c) 0).trans (by rw [put_slots, Slots.set_same])
            · rw [hd]
              simp [hsize]
          · have hother : ∀ n, slots cfg (Function.update w.disk (c.file cfg)
                (some (content ++ c.line serialize msg rcv))) d n = (w.archive cfg).slots d n :=
              fun n => (congrFun (congrFun hslots d) n).trans (congrFun (put_slots_other c _ 0 _ d hd) n)
            refine ⟨fun h => ?_, fun h => ?_⟩
            · obtain ⟨ho, hg, b, hb, hsz⟩ := (hready d).1 h
              exact ⟨ho, hg, b, (hother 0).trans hb, by simpa [hd] using hsz⟩
            · obtain ⟨ho, hsz⟩ := (hready d).2 h
              exact ⟨ho, by simpa [hd] using hsz⟩
      | fails message =>
        have hbad : ¬ plan.Ok (.write c) := by simp [Plan.Ok, hout]
        simp only [setFile, onSink, wp_bind, wp_modify, wp_pure, Bool.false_eq_true, if_false]
        refine wp_mono _ _ _ _ _ _ (failSink_quiet cfg retryInterval plan _ _) ?_ ?_
        · rintro - w' ⟨hq, hd⟩
          refine ⟨hq.running, ?_, fun h => (by cases h), fun _ => ⟨hd, hq.calm (hcalm _ rfl), fun h => hbad (h _)⟩⟩
          rw [hq.archive cfg]
          exact htorn hbad
        · intro e w' hq
          refine ⟨hq.running, ?_, hq.calm (hcalm _ rfl), fun h => hbad (h _)⟩
          rw [hq.archive cfg]
          exact htorn hbad
      | throws what =>
        have hbad : ¬ plan.Ok (.write c) := by simp [Plan.Ok, hout]
        exact ⟨rfl, htorn hbad, hcalm _ rfl, fun h => hbad (h _)⟩
      | killed =>
        have hbad : ¬ plan.Ok (.write c) := by simp [Plan.Ok, hout]
        exact ⟨rfl, htorn hbad, hcalm _ rfl, fun h => hbad (h _)⟩
    · intro hbad e
      exact ⟨rfl, .untouched, hcalm _ rfl, fun h => hbad (h _)⟩
  · obtain ⟨hopen, -⟩ := (hready c).2 hc
    rw [hopen]
    exact ⟨rfl, .absent hc, fun _ => ⟨hready, hservice⟩, fun h => by cases h⟩

/-! ## Before the lines -/

/-- The files before the lines are written: rotated, if that was due. -/
structure Prepared (done : Bool) (w w' : World) : Prop where
  due : Due cfg (w.archive cfg) → ∃ w₁, Opened (w.archive cfg) (w₁.archive cfg) ∧ Rotated cfg plan done w₁ w'
  notDue : ¬ Due cfg (w.archive cfg) → Opened (w.archive cfg) (w'.archive cfg)

theorem Rotated.refl (w : World) : Rotated cfg plan false w w :=
  ⟨w, w, false, false, Stage.untouched cfg plan .text (Quiet.refl w),
    Stage.untouched cfg plan .jsonl (Quiet.refl w), Opened.refl _, fun h => by cases h⟩

theorem Prepared.opened {w w' : World} (h : Opened (w.archive cfg) (w'.archive cfg)) :
    Prepared cfg plan false w w' :=
  ⟨fun _ => ⟨w', h, Rotated.refl cfg plan w'⟩, fun _ => h⟩

theorem Opened.quiet {w w' w'' : World} (h : Opened (w.archive cfg) (w'.archive cfg)) (hq : Quiet w' w'') :
    Opened (w.archive cfg) (w''.archive cfg) := h.trans (hq.opened cfg)

theorem Rotated.quiet {done : Bool} {w w' w'' : World} (h : Rotated cfg plan done w w') (hq : Quiet w' w'') :
    Rotated cfg plan done w w'' := by
  obtain ⟨w₁, w₂, text, jsonl, ht, hj, ho, hdone⟩ := h
  exact ⟨w₁, w₂, text, jsonl, ht, hj, Opened.quiet cfg ho hq, hdone⟩

theorem Prepared.quiet {done : Bool} {w w' w'' : World} (h : Prepared cfg plan done w w') (hq : Quiet w' w'') :
    Prepared cfg plan done w w'' := by
  refine ⟨fun hdue => ?_, fun hdue => Opened.quiet cfg (h.notDue hdue) hq⟩
  obtain ⟨w₁, ho, hr⟩ := h.due hdue
  exact ⟨w₁, ho, Rotated.quiet cfg plan hr hq⟩

/-- A sink that takes messages is not opened yet or ready. -/
theorem needOpen_cases (w : World) (h : Idle w.sink ∨ Ready cfg w) :
    (needOpen cfg w.sink = true ∧ Idle w.sink) ∨ (needOpen cfg w.sink = false ∧ Ready cfg w) := by
  unfold needOpen
  cases h with
  | inl hidle =>
    rw [(hidle .text).1, (hidle .jsonl).1]
    by_cases ht : cfg.textFile = []
    · by_cases hj : cfg.jsonlFile = []
      · refine .inr ⟨by simp [ht, hj], ?_⟩
        intro c
        cases c with
        | text => exact ⟨fun hc => absurd ht hc, fun _ => hidle .text⟩
        | jsonl => exact ⟨fun hc => absurd hj hc, fun _ => hidle .jsonl⟩
      · exact .inl ⟨by simp [hj], hidle⟩
    · exact .inl ⟨by simp [ht], hidle⟩
  | inr hready =>
    refine .inr ⟨?_, hready⟩
    have hchain : ∀ c : Chain, (decide (c.file cfg ≠ []) && !w.sink.isOpen c) = false := by
      intro c
      by_cases hc : c.file cfg = []
      · simp [hc]
      · rw [((hready c).1 hc).1]
        simp
    have ht := hchain .text
    have hj := hchain .jsonl
    unfold Chain.file at ht hj
    rw [ht, hj]
    rfl

/-- The counters of the sink tell when a rotation is due. -/
theorem Ready.due {w : World} (h : Ready cfg w) :
    (cfg.maxSize ≠ 0 ∧ (cfg.maxSize ≤ w.sink.size .text ∨ cfg.maxSize ≤ w.sink.size .jsonl)) ↔
    Due cfg (w.archive cfg) := by
  have hchain : cfg.maxSize ≠ 0 → ∀ c, cfg.maxSize ≤ w.sink.size c ↔
      ∃ content, (w.archive cfg).slots c 0 = some content ∧ cfg.maxSize ≤ content.length := by
    intro hmax c
    by_cases hc : c.Configured cfg
    · obtain ⟨-, -, content, hslot, hsize⟩ := (h c).1 hc
      rw [hsize, hslot]
      simp
    · rw [((h c).2 hc).2]
      have habsent : (w.archive cfg).slots c 0 = none := slots_absent cfg w.disk c 0 hc
      rw [habsent]
      simp
      omega
  constructor
  · rintro ⟨hmax, hsize⟩
    cases hsize with
    | inl ht =>
      obtain ⟨content, hslot, hlen⟩ := (hchain hmax .text).mp ht
      exact ⟨hmax, .text, content, hslot, hlen⟩
    | inr hj =>
      obtain ⟨content, hslot, hlen⟩ := (hchain hmax .jsonl).mp hj
      exact ⟨hmax, .jsonl, content, hslot, hlen⟩
  · rintro ⟨hmax, c, content, hslot, hlen⟩
    have hsize := (hchain hmax c).mpr ⟨content, hslot, hlen⟩
    cases c with
    | text => exact ⟨hmax, .inl hsize⟩
    | jsonl => exact ⟨hmax, .inr hsize⟩

/-- Where a sink stands after opening and rotating. -/
def PreparedOrDown (w w' : World) : Prop :=
  (Prepared cfg plan true w w' ∧ Ready cfg w' ∧ InService w'.sink) ∨
    (Prepared cfg plan false w w' ∧ Down w'.sink ∧ Calm w'.sink ∧ ¬ plan.AllOk)

include hapart in
theorem rotateIfNeeded_ready (w w₁ : World) (hopened : Opened (w.archive cfg) (w₁.archive cfg))
    (hready : Ready cfg w₁) (hservice : InService w₁.sink) :
    wp (rotateIfNeeded cfg retryInterval plan) (fun _ w' => w'.running = w₁.running ∧
      PreparedOrDown cfg plan w w')
      (fun _ w' => w'.running = w₁.running ∧ Prepared cfg plan false w w' ∧ Calm w'.sink ∧
        ¬ plan.AllOk) w₁ := by
  have hdue := Opened.due cfg hopened
  unfold rotateIfNeeded
  simp only [wp_bind, wp_get]
  by_cases h : cfg.maxSize ≠ 0 ∧ (cfg.maxSize ≤ w₁.sink.size .text ∨ cfg.maxSize ≤ w₁.sink.size .jsonl)
  · have hd : Due cfg (w.archive cfg) := hdue.mp ((Ready.due cfg hready).mp h)
    have hprep : ∀ done w', Rotated cfg plan done w₁ w' → Prepared cfg plan done w w' :=
      fun done w' hr => ⟨fun _ => ⟨w₁, hopened, hr⟩, fun hn => absurd hd hn⟩
    rw [if_pos h]
    refine wp_mono _ _ _ _ _ _ (rotate_spec cfg retryInterval plan hapart w₁ hservice.2) ?_ ?_
    · rintro - w' ⟨hrun, hend⟩
      refine ⟨hrun, ?_⟩
      cases hend with
      | inl h' => exact .inl ⟨hprep true w' h'.1, h'.2.1, h'.2.2.1.trans hservice.1, h'.2.2.2⟩
      | inr h' => exact .inr ⟨hprep false w' h'.1, h'.2⟩
    · rintro e w' ⟨hrun, hr, hend⟩
      exact ⟨hrun, hprep false w' hr, hend⟩
  · have hd : ¬ Due cfg (w.archive cfg) := fun hn => h ((Ready.due cfg hready).mpr (hdue.mpr hn))
    rw [if_neg h]
    exact ⟨rfl, .inl ⟨⟨fun hn => absurd hn hd, fun _ => hopened⟩, hready, hservice⟩⟩

theorem rotateIfNeeded_down (w w₁ : World) (hopened : Opened (w.archive cfg) (w₁.archive cfg))
    (hdown : Down w₁.sink) (hcalm : Calm w₁.sink) (hbad : ¬ plan.AllOk) (E : Exit → World → Prop) :
    wp (rotateIfNeeded cfg retryInterval plan) (fun _ w' => w'.running = w₁.running ∧
      PreparedOrDown cfg plan w w') E w₁ := by
  have hno : ¬ (cfg.maxSize ≠ 0 ∧ (cfg.maxSize ≤ w₁.sink.size .text ∨ cfg.maxSize ≤ w₁.sink.size .jsonl)) := by
    rw [(hdown.2 .text).2, (hdown.2 .jsonl).2]
    omega
  unfold rotateIfNeeded
  simp only [wp_bind, wp_get]
  rw [if_neg hno]
  exact ⟨rfl, .inr ⟨Prepared.opened cfg plan hopened, hdown, hcalm, hbad⟩⟩

/-! ## A message -/

/-- What a message that is accepted does to the files; `true` when its lines are all written. -/
inductive Written (msg : SyslogMessage) (rcv : Bytes) (w w' : World) : Bool → Prop
  | stopped (h : Prepared cfg plan false w w') : Written msg rcv w w' false
  | wrote (w₁ : World) (a₂ : Archive) (text jsonl : Bool) (h : Prepared cfg plan true w w₁)
    (hready : Ready cfg w₁) (ht : Appended cfg plan .text (Chain.line serialize .text msg rcv)
      (w₁.archive cfg) text a₂) (hj : Appended cfg plan .jsonl (Chain.line serialize .jsonl msg rcv) a₂ jsonl
        (w'.archive cfg)) :
    Written msg rcv w w' (text && jsonl)

theorem Written.quiet {msg : SyslogMessage} {rcv : Bytes} {w w' w'' : World} {done : Bool}
    (h : Written cfg serialize plan msg rcv w w' done) (hq : Quiet w' w'') :
    Written cfg serialize plan msg rcv w w'' done := by
  cases h with
  | stopped h => exact .stopped (Prepared.quiet cfg plan h hq)
  | wrote w₁ a₂ text jsonl h hready ht hj =>
    exact .wrote w₁ a₂ text jsonl h hready ht (by rw [hq.archive cfg]; exact hj)

def WrittenOrClosed (msg : SyslogMessage) (rcv : Bytes) (w w' : World) : Prop :=
  (Written cfg serialize plan msg rcv w w' true ∧ Ready cfg w' ∧ InService w'.sink) ∨
    (Written cfg serialize plan msg rcv w w' false ∧ w'.sink.closed = true ∧ Calm w'.sink ∧ ¬ plan.AllOk)

include hapart in
theorem writeChains_spec (msg : SyslogMessage) (rcv : Bytes) (w w₁ : World) (hrun : w₁.running = w.running)
    (hprep : PreparedOrDown cfg plan w w₁) :
    wp (do reach plan .timestamp
           if ← writeChain cfg retryInterval serialize plan .text msg rcv then
             discard (writeChain cfg retryInterval serialize plan .jsonl msg rcv) : M Unit)
      (fun _ w' => w'.running = w.running ∧ WrittenOrClosed cfg serialize plan msg rcv w w')
      (fun _ w' => w'.running = w.running ∧ Written cfg serialize plan msg rcv w w' false ∧ Calm w'.sink ∧
        ¬ plan.AllOk) w₁ := by
  rw [wp_bind]
  cases hprep with
  | inl h =>
    obtain ⟨hp, hready, hservice⟩ := h
    apply reach_rule
    · rw [wp_bind]
      refine wp_mono _ _ _ _ _ _ (writeChain_spec cfg retryInterval serialize plan hapart .text msg rcv w₁
        hready hservice) ?_ ?_
      · rintro text w₂ ⟨hrun₂, ht, htrue, hfalse⟩
        cases text with
        | false =>
          obtain ⟨hdown, hcalm, hbad⟩ := hfalse rfl
          exact ⟨hrun₂.trans hrun, .inr ⟨.wrote w₁ (w₂.archive cfg) false false hp hready ht .untouched,
            hdown.1, hcalm, hbad⟩⟩
        | true =>
          obtain ⟨hready₂, hservice₂⟩ := htrue rfl
          change wp (writeChain cfg retryInterval serialize plan .jsonl msg rcv >>= fun _ => pure ()) _ _ w₂
          rw [wp_bind]
          refine wp_mono _ _ _ _ _ _
            (writeChain_spec cfg retryInterval serialize plan hapart .jsonl msg rcv w₂ hready₂ hservice₂) ?_ ?_
          · rintro jsonl w₃ ⟨hrun₃, hj, htrue₃, hfalse₃⟩
            refine ⟨hrun₃.trans (hrun₂.trans hrun), ?_⟩
            have hwritten := Written.wrote w₁ (w₂.archive cfg) true jsonl hp hready ht hj
            cases jsonl with
            | false => exact .inr ⟨hwritten, (hfalse₃ rfl).1.1, (hfalse₃ rfl).2⟩
            | true => exact .inl ⟨hwritten, htrue₃ rfl⟩
          · rintro e w₃ ⟨hrun₃, hj, hcalm, hbad⟩
            exact ⟨hrun₃.trans (hrun₂.trans hrun), .wrote w₁ (w₂.archive cfg) true false hp hready ht hj,
              hcalm, hbad⟩
      · rintro e w₂ ⟨hrun₂, ht, hcalm, hbad⟩
        exact ⟨hrun₂.trans hrun, .wrote w₁ (w₂.archive cfg) false false hp hready ht .untouched, hcalm, hbad⟩
    · intro hbad e
      have hcalm : Calm w₁.sink := fun h => by rw [hservice.2] at h; cases h
      exact ⟨hrun, .wrote w₁ (w₁.archive cfg) false false hp hready .untouched .untouched, hcalm,
        fun h => hbad (h _)⟩
  | inr h =>
    obtain ⟨hp, hdown, hcalm, hbad⟩ := h
    -- no stream is open any more, so nothing is written
    have hskip : ∀ c, writeChain cfg retryInterval serialize plan c msg rcv w₁ = (.ok true, w₁) := by
      intro c
      change (if w₁.sink.isOpen c = false then (pure true : M Bool) else _) w₁ = _
      rw [if_pos (hdown.2 c).1]
      rfl
    apply reach_rule
    · change wp (writeChain cfg retryInterval serialize plan .text msg rcv >>= fun ok =>
        if ok = true then (writeChain cfg retryInterval serialize plan .jsonl msg rcv >>= fun _ => pure ())
          else pure ()) _ _ w₁
      rw [wp_bind]
      unfold wp
      rw [hskip .text]
      simp only [if_pos]
      change wp (writeChain cfg retryInterval serialize plan .jsonl msg rcv >>= fun _ => pure ()) _ _ w₁
      rw [wp_bind]
      unfold wp
      rw [hskip .jsonl]
      exact ⟨hrun, .inr ⟨.stopped hp, hdown.1, hcalm, hbad⟩⟩
    · intro _ e
      exact ⟨hrun, .stopped hp, hcalm, hbad⟩

include hapart in
theorem doWrite_spec (msg : SyslogMessage) (rcv : Bytes) (w : World) (hservice : InService w.sink)
    (hstate : Idle w.sink ∨ Ready cfg w) (haccepts : accepts cfg msg = true) :
    wp (doWrite cfg retryInterval serialize plan msg rcv)
      (fun _ w' => w'.running = w.running ∧ WrittenOrClosed cfg serialize plan msg rcv w w')
      (fun _ w' => w'.running = w.running ∧ Written cfg serialize plan msg rcv w w' false ∧ Calm w'.sink ∧
        ¬ plan.AllOk) w := by
  have hgo : ¬ (w.sink.closed = true ∨ accepts cfg msg = false) := by
    rw [hservice.1, haccepts]
    simp
  have hrotate : ∀ w₁, w₁.running = w.running → Opened (w.archive cfg) (w₁.archive cfg) →
      (Ready cfg w₁ ∧ InService w₁.sink ∨ Down w₁.sink ∧ Calm w₁.sink ∧ ¬ plan.AllOk) →
      wp (do rotateIfNeeded cfg retryInterval plan
             reach plan .timestamp
             if ← writeChain cfg retryInterval serialize plan .text msg rcv then
               discard (writeChain cfg retryInterval serialize plan .jsonl msg rcv) : M Unit)
        (fun _ w' => w'.running = w.running ∧ WrittenOrClosed cfg serialize plan msg rcv w w')
        (fun _ w' => w'.running = w.running ∧ Written cfg serialize plan msg rcv w w' false ∧ Calm w'.sink ∧
          ¬ plan.AllOk) w₁ := by
    intro w₁ hrun hopened hend
    rw [wp_bind]
    cases hend with
    | inl h =>
      refine wp_mono _ _ _ _ _ _ (rotateIfNeeded_ready cfg retryInterval plan hapart w w₁ hopened h.1 h.2) ?_ ?_
      · rintro - w₂ ⟨hrun₂, hprep⟩
        exact writeChains_spec cfg retryInterval serialize plan hapart msg rcv w w₂ (hrun₂.trans hrun) hprep
      · rintro e w₂ ⟨hrun₂, hprep, hrest⟩
        exact ⟨hrun₂.trans hrun, .stopped hprep, hrest⟩
    | inr h =>
      refine wp_mono _ _ _ _ _ _ (rotateIfNeeded_down cfg retryInterval plan w w₁ hopened h.1 h.2.1 h.2.2
        _) ?_ (fun _ _ hE => hE)
      rintro - w₂ ⟨hrun₂, hprep⟩
      exact writeChains_spec cfg retryInterval serialize plan hapart msg rcv w w₂ (hrun₂.trans hrun) hprep
  unfold doWrite
  simp only [wp_bind, wp_get]
  rw [if_neg hgo]
  cases needOpen_cases cfg w hstate with
  | inl h =>
    simp only [h.1, if_pos, wp_bind]
    refine wp_mono _ _ _ _ _ _ (openFiles_spec cfg retryInterval plan hapart false w h.2 hservice.2) ?_ ?_
    · rintro - w₁ ⟨hopened, hrun, hend⟩
      have hend' : Ready cfg w₁ ∧ InService w₁.sink ∨ Down w₁.sink ∧ Calm w₁.sink ∧ ¬ plan.AllOk := by
        cases hend with
        | inl h' => exact .inl ⟨h'.1, h'.2.1.trans hservice.1, h'.2.2⟩
        | inr h' => exact .inr h'
      exact hrotate w₁ hrun hopened hend'
    · rintro e w₁ ⟨hopened, hrun, hcalm, hbad⟩
      exact ⟨hrun, .stopped (Prepared.opened cfg plan hopened), hcalm, hbad⟩
  | inr h =>
    simp only [h.1, Bool.false_eq_true, if_false]
    exact hrotate w rfl (Opened.refl _) (.inl ⟨h.2, hservice⟩)

end Handlers

/-! ## Events -/

section Events

variable (cfg : OutputConfig) (retryInterval : ℕ) (serialize : List (Bytes × Option Bytes) → Bytes)

/-- The invariant of a running sink between two handlers. -/
def Sound (w : World) : Prop :=
  w.running = true → Calm w.sink ∧ (w.sink.closed = false → Idle w.sink ∨ Ready cfg w)

/-- The process runs and its sink takes messages. -/
def Live (w : World) : Prop := w.running = true ∧ InService w.sink

/-- The message of the event is for the files. -/
def Takes (w : World) (msg : SyslogMessage) : Prop :=
  w.running = true ∧ w.sink.closed = false ∧ accepts cfg msg = true

/-- What the handler of an event does to the files. -/
def Handled (e : Event) (w v : World) : Prop :=
  match e with
  | .write msg rcv plan =>
    (Takes cfg w msg ∧ ∃ done, Written cfg serialize plan msg rcv w v done) ∨
      (¬ Takes cfg w msg ∧ Opened (w.archive cfg) (v.archive cfg))
  | _ => Opened (w.archive cfg) (v.archive cfg)

variable (hapart : Apart cfg) (plan : Plan)

/-- The files do not depend on the process. -/
theorem Opened.process {w v : World} {s s' : LogFile} {r r' : Bool}
    (h : Opened (World.archive cfg { w with sink := s, running := r }) (v.archive cfg)) :
    Opened (w.archive cfg) (World.archive cfg { v with sink := s', running := r' }) :=
  ⟨h.outside, h.trace, h.later, h.active, h.kept⟩

include hapart in
theorem start_spec (openNow : Bool) (w : World) :
    wp (handler cfg retryInterval serialize (.start openNow plan))
      (fun _ v => Handled cfg serialize (.start openNow plan) w v ∧ Sound cfg v ∧ (plan.AllOk → Live v))
      (fun _ v => Handled cfg serialize (.start openNow plan) w v ∧ ¬ plan.AllOk) w := by
  have hidle : Idle { startingUp := true } := fun _ => ⟨rfl, rfl⟩
  unfold handler
  simp only [wp_bind, wp_modify]
  cases openNow with
  | false =>
    refine ⟨Opened.process cfg (Opened.refl (w.archive cfg)),
      fun _ => ⟨fun h => (by cases h), fun _ => .inl fun _ => ⟨rfl, rfl⟩⟩, fun _ => ⟨rfl, rfl, rfl⟩⟩
  | true =>
    unfold openAtStartup onSink
    simp only [if_pos, wp_bind, wp_modify]
    refine wp_mono _ _ _ _ _ _ (openFiles_spec cfg retryInterval plan hapart false _ hidle rfl) ?_ ?_
    · rintro - w₁ ⟨hopened, hrun, hend⟩
      cases hend with
      | inl h =>
        obtain ⟨hready, hclosed, harmed⟩ := h
        have hclosed : w₁.sink.closed = false := hclosed
        refine ⟨Opened.process cfg hopened, fun _ => ⟨?_, fun _ => .inr hready⟩, fun _ => ⟨?_, hclosed, harmed⟩⟩
        · intro h
          change w₁.sink.retryArmed = true at h
          rw [harmed] at h
          cases h
        · change (!w₁.sink.closed) = true
          rw [hclosed]
          rfl
      | inr h =>
        obtain ⟨hdown, hcalm, hbad⟩ := h
        refine ⟨Opened.process cfg hopened, ?_, fun hok => absurd hok hbad⟩
        intro hrun'
        change (!w₁.sink.closed) = true at hrun'
        rw [hdown.1] at hrun'
        cases hrun'
    · rintro e w₁ ⟨hopened, hrun, hcalm, hbad⟩
      exact ⟨Opened.process cfg hopened, hbad⟩

include hapart in
theorem write_spec (msg : SyslogMessage) (rcv : Bytes) (w : World) (hs : Sound cfg w)
    (hrun : w.running = true) :
    wp (handler cfg retryInterval serialize (.write msg rcv plan))
      (fun _ v => Handled cfg serialize (.write msg rcv plan) w v ∧ Sound cfg v ∧
        (plan.AllOk → (Takes cfg w msg → Live v ∧ Written cfg serialize plan msg rcv w v true) ∧
          (¬ Takes cfg w msg → v = w)))
      (fun _ v => Handled cfg serialize (.write msg rcv plan) w v ∧ ¬ plan.AllOk) w := by
  obtain ⟨hcalm, hstate⟩ := hs hrun
  by_cases htakes : Takes cfg w msg
  · have hclosed := htakes.2.1
    have haccepts := htakes.2.2
    have harmed : w.sink.retryArmed = false := by
      by_contra h
      have hdown := hcalm (by simpa using h)
      rw [hdown.1] at hclosed
      cases hclosed
    have hhandled : ∀ v done, Written cfg serialize plan msg rcv w v done →
        Handled cfg serialize (.write msg rcv plan) w v :=
      fun v done hw => .inl ⟨htakes, done, hw⟩
    refine wp_mono _ _ _ _ _ _ (guarded_rule cfg retryInterval plan _ w _ _
      (doWrite_spec cfg retryInterval serialize plan hapart msg rcv w ⟨hclosed, harmed⟩
        (hstate hclosed) haccepts)) ?_ ?_
    · rintro - v hv
      cases hv with
      | inl h =>
        obtain ⟨hrun', hend⟩ := h
        cases hend with
        | inl h =>
          obtain ⟨hw, hready, hservice⟩ := h
          refine ⟨hhandled v _ hw, fun _ => ⟨?_, fun _ => .inr hready⟩,
            fun _ => ⟨fun _ => ⟨⟨hrun'.trans hrun, hservice⟩, hw⟩, ?_⟩⟩
          · intro h
            rw [hservice.2] at h
            cases h
          · exact fun hn => absurd htakes hn
        | inr h =>
          obtain ⟨hw, hclosed', hcalm', hbad⟩ := h
          refine ⟨hhandled v _ hw, fun _ => ⟨hcalm', fun h => ?_⟩, fun hok => absurd hok hbad⟩
          rw [hclosed'] at h
          cases h
      | inr h =>
        obtain ⟨u, ⟨-, hw, hcalm', hbad⟩, hq, hclosed'⟩ := h
        refine ⟨hhandled v _ (Written.quiet cfg serialize plan hw hq), fun _ => ⟨hq.calm hcalm', fun h => ?_⟩,
          fun hok => absurd hok hbad⟩
        rw [hclosed'] at h
        cases h
    · rintro - v ⟨u, ⟨-, hw, -, hbad⟩, hq⟩
      exact ⟨hhandled v _ (Written.quiet cfg serialize plan hw hq), hbad⟩
  · have hskip : w.sink.closed = true ∨ accepts cfg msg = false := by
      by_contra h
      simp only [not_or, Bool.not_eq_true, Bool.not_eq_false] at h
      exact htakes ⟨hrun, h⟩
    have hdo : doWrite cfg retryInterval serialize plan msg rcv w = (.ok (), w) := by
      change (if w.sink.closed = true ∨ accepts cfg msg = false then (pure () : M Unit) else _) w = _
      rw [if_pos hskip]
      rfl
    change wp (Effect.handle (doWrite cfg retryInterval serialize plan msg rcv) _) _ _ w
    rw [wp_handle]
    unfold wp
    rw [hdo]
    exact ⟨.inr ⟨htakes, Opened.refl _⟩, hs, fun _ => ⟨fun h => absurd h htakes, fun _ => rfl⟩⟩

include hapart in
theorem retry_spec (w : World) (hs : Sound cfg w) (hrun : w.running = true) :
    wp (handler cfg retryInterval serialize (.retry plan))
      (fun _ v => Handled cfg serialize (.retry plan) w v ∧ Sound cfg v ∧ (w.sink.retryArmed = false → v = w))
      (fun _ v => Handled cfg serialize (.retry plan) w v ∧ w.sink.retryArmed = true) w := by
  obtain ⟨hcalm, -⟩ := hs hrun
  unfold handler
  simp only [wp_bind, wp_get]
  by_cases harmed : w.sink.retryArmed = true
  · have hdown := hcalm harmed
    rw [if_pos harmed]
    simp only [onSink, wp_bind, wp_modify]
    by_cases hshut : w.sink.shuttingDown = false
    · rw [if_pos hshut]
      -- the streams are closed, as `openFiles` needs it
      have hbody : wp (attemptReopen cfg retryInterval plan)
          (fun _ v => Opened (w.archive cfg) (v.archive cfg) ∧ Calm v.sink ∧
            (v.sink.closed = false → Ready cfg v)) (fun _ v => Opened (w.archive cfg) (v.archive cfg) ∧
              Calm v.sink) { w with sink := { w.sink with retryArmed := false } } := by
        have hidle : Idle { w.sink with retryArmed := false, closed := false } := hdown.2
        unfold attemptReopen onSink
        simp only [wp_bind, wp_modify]
        refine wp_mono _ _ _ _ _ _ (openFiles_spec cfg retryInterval plan hapart false _ hidle rfl) ?_ ?_
        · rintro - w₁ ⟨hopened, -, hend⟩
          rw [wp_bind, wp_get]
          cases hend with
          | inl h =>
            obtain ⟨hready, hclosed, harmed₁⟩ := h
            have hclosed : w₁.sink.closed = false := hclosed
            have hcalm₁ : Calm { w₁.sink with recovery := (w₁.sink.recovery.onRecovered plan.now).2 } := by
              intro h
              change w₁.sink.retryArmed = true at h
              rw [harmed₁] at h
              cases h
            rw [if_pos hclosed]
            simp only [wp_bind, wp_modify]
            refine wp_mono _ _ _ _ _ _ (osLog_quiet plan _ _) ?_ ?_
            · rintro - v ⟨hq, hsink⟩
              refine ⟨hopened.trans (hq.opened cfg), hq.calm hcalm₁, fun _ => ?_⟩
              intro c
              unfold ReadyAt
              rw [hsink, hq.archive cfg]
              exact hready c
            · rintro - v ⟨hq, -⟩
              exact ⟨hopened.trans (hq.opened cfg), hq.calm hcalm₁⟩
          | inr h =>
            have hno : ¬ w₁.sink.closed = false := by rw [h.1.1]; simp
            rw [if_neg hno]
            exact ⟨hopened, h.2.1, fun hf => absurd hf hno⟩
        · rintro - w₁ ⟨hopened, -, hcalm₁, -⟩
          exact ⟨hopened, hcalm₁⟩
      refine wp_mono _ _ _ _ _ _ (guarded_rule cfg retryInterval plan _ _ _ _ hbody) ?_ ?_
      · rintro - v hv
        cases hv with
        | inl h =>
          exact ⟨h.1, fun _ => ⟨h.2.1, fun hf => .inr (h.2.2 hf)⟩,
            fun hf => absurd (harmed.symm.trans hf) (by simp)⟩
        | inr h =>
          obtain ⟨u, ⟨hopened, hcalm'⟩, hq, hclosed⟩ := h
          refine ⟨hopened.trans (hq.opened cfg), fun _ => ⟨hq.calm hcalm', fun hf => ?_⟩,
            fun hf => absurd (harmed.symm.trans hf) (by simp)⟩
          rw [hclosed] at hf
          cases hf
      · rintro - v ⟨u, ⟨hopened, -⟩, hq⟩
        exact ⟨hopened.trans (hq.opened cfg), harmed⟩
    · rw [if_neg hshut]
      refine ⟨Opened.refl _, fun _ => ⟨fun h => (by cases h), fun hf => ?_⟩,
        fun hf => absurd (harmed.symm.trans hf) (by simp)⟩
      have hclosed : w.sink.closed = false := hf
      rw [hdown.1] at hclosed
      cases hclosed
  · rw [if_neg harmed]
    exact ⟨Opened.refl _, hs, fun _ => rfl⟩

theorem close_spec (w : World) :
    wp (handler cfg retryInterval serialize .close)
      (fun _ v => Handled cfg serialize .close w v ∧ Sound cfg v ∧ v.running = w.running ∧
        v.sink.closed = true ∧
          v.sink.retryArmed = false)
      (fun _ _ => False) w :=
  ⟨Opened.refl _, fun _ => ⟨fun h => (by cases h), fun h => (by cases h)⟩, rfl, rfl, rfl⟩

include hapart in
theorem handler_spec (e : Event) (w : World) (hs : Sound cfg w) (hrun : e.isStart = false → w.running = true) :
    wp (handler cfg retryInterval serialize e) (fun _ v => Handled cfg serialize e w v ∧ Sound cfg v)
      (fun _ v => Handled cfg serialize e w v) w := by
  cases e with
  | start openNow plan =>
    exact wp_mono _ _ _ _ _ _ (start_spec cfg retryInterval serialize hapart plan openNow w)
      (fun _ v h => ⟨h.1, h.2.1⟩) (fun _ v h => h.1)
  | write msg rcv plan =>
    exact wp_mono _ _ _ _ _ _ (write_spec cfg retryInterval serialize hapart plan msg rcv w hs (hrun rfl))
      (fun _ v h => ⟨h.1, h.2.1⟩) (fun _ v h => h.1)
  | retry plan =>
    exact wp_mono _ _ _ _ _ _ (retry_spec cfg retryInterval serialize hapart plan w hs (hrun rfl))
      (fun _ v h => ⟨h.1, h.2.1⟩) (fun _ v h => h.1)
  | close =>
    exact wp_mono _ _ _ _ _ _ (close_spec cfg retryInterval serialize w)
      (fun _ v h => ⟨h.1, h.2.1⟩) (fun _ v h => h.elim)

include hapart in
/-- Every step, whatever fails in it. -/
theorem step_cases (e : Event) (w : World) (hs : Sound cfg w) :
    Sound cfg (step cfg retryInterval serialize w e) ∧ ∃ v, Handled cfg serialize e w v ∧
      (step cfg retryInterval serialize w e = v ∨ step cfg retryInterval serialize w e =
        { v with running := false }) := by
  unfold step
  by_cases hidle : w.running = false ∧ e.isStart = false
  · rw [if_pos hidle]
    refine ⟨hs, w, ?_, .inl rfl⟩
    cases e with
    | start openNow plan => exact Opened.refl _
    | write msg rcv plan =>
      refine .inr ⟨fun h => ?_, Opened.refl _⟩
      have hrun := h.1
      rw [hidle.1] at hrun
      cases hrun
    | retry plan => exact Opened.refl _
    | close => exact Opened.refl _
  · have hrun : e.isStart = false → w.running = true := by
      intro he
      by_contra hr
      exact hidle ⟨by simpa using hr, he⟩
    have hspec := handler_spec cfg retryInterval serialize hapart e w hs hrun
    rw [if_neg hidle]
    unfold wp at hspec
    cases hh : handler cfg retryInterval serialize e w with
    | mk r v =>
      rw [hh] at hspec
      cases r with
      | ok _ => exact ⟨hspec.2, v, hspec.1, .inl rfl⟩
      | error _ => exact ⟨fun h => (by cases h), v, hspec, .inr rfl⟩

/-! ## Runs -/

/-- Every step of a run meets a condition on the state before it and the event. -/
def Along (P : World → Event → Prop) : World → List Event → Prop
  | _, [] => True
  | w, e :: events => P w e ∧ Along P (step cfg retryInterval serialize w e) events

include hapart in
/-- What the handlers keep holds in every state that is reached. -/
theorem run_invariant (P : World → Event → Prop) (I : Archive → Prop)
    (hrunning : ∀ a r, I a → I { a with running := r })
    (hstep : ∀ e w v, Handled cfg serialize e w v → P w e → I (w.archive cfg) → I (v.archive cfg))
    (events : List Event) (w : World) (hs : Sound cfg w) (hI : I (w.archive cfg))
    (hP : Along cfg retryInterval serialize P w events) :
    I ((run cfg retryInterval serialize w events).archive cfg) := by
  induction events generalizing w with
  | nil => exact hI
  | cons e events ih =>
    obtain ⟨hs', v, hv, hend⟩ := step_cases cfg retryInterval serialize hapart e w hs
    have hIv := hstep e w v hv hP.1 hI
    refine ih _ hs' ?_ hP.2
    cases hend with
    | inl h =>
      rw [h]
      exact hIv
    | inr h =>
      rw [h]
      exact hrunning _ false hIv

end Events

end Minilog.Output
