import Minilog.Output.Generations

/-! Opening the files of a sink, and a whole rotation.

A sink that takes messages is `Idle` (nothing opened yet) or `Ready` (every configured file open, with its
size); all else is a sink taken out of service. `openFiles` leads from the first to the second and creates
active files that are missing. -/
namespace Minilog.Output
open Lib Lib.Effect
open Minilog.Parser Minilog.Server
set_option autoImplicit false

/-- Missing active files may have been created. -/
structure Opened (a a' : Archive) : Prop where
  outside : a'.outside = a.outside
  trace : a'.trace = a.trace
  later : ∀ c n, n ≠ 0 → a'.slots c n = a.slots c n
  active : ∀ c, (a'.slots c 0).getD [] = (a.slots c 0).getD []
  kept : ∀ c, a.slots c 0 ≠ none → a'.slots c 0 = a.slots c 0

namespace Opened

variable {a a' a'' : Archive}

theorem refl (a : Archive) : Opened a a := ⟨rfl, rfl, fun _ _ _ => rfl, fun _ => rfl, fun _ _ => rfl⟩

theorem trans (h : Opened a a') (h' : Opened a' a'') : Opened a a'' where
  outside := h'.outside.trans h.outside
  trace := h'.trace.trans h.trace
  later c n hn := (h'.later c n hn).trans (h.later c n hn)
  active c := (h'.active c).trans (h.active c)
  kept c hc := by
    have hsame := h.kept c hc
    rw [h'.kept c (by rw [hsame]; exact hc), hsame]

theorem put (a : Archive) (c : Chain) : Opened a (a.put c 0 (some ((a.slots c 0).getD []))) where
  outside := rfl
  trace := rfl
  later d n hn := by
    by_cases hd : d = c
    · rw [hd, put_slots, Slots.set_other _ _ _ _ hn]
    · rw [put_slots_other c a 0 _ d hd]
  active d := by
    by_cases hd : d = c
    · rw [hd, put_slots, Slots.set_same]
      rfl
    · rw [put_slots_other c a 0 _ d hd]
  kept d hne := by
    by_cases hd : d = c
    · rw [hd] at hne ⊢
      obtain ⟨b, hb⟩ := Option.ne_none_iff_exists'.mp hne
      rw [put_slots, Slots.set_same, hb]
      rfl
    · rw [put_slots_other c a 0 _ d hd]

theorem archived (cfg : OutputConfig) (c : Chain) (h : Opened a a') : archived cfg c a' = archived cfg c a := by
  unfold Output.archived
  rw [h.trace]
  congr 1
  apply Slots.listing_congr
  intro n _
  by_cases hn : n = 0
  · rw [hn, Slots.set_same, Slots.set_same]
  · rw [Slots.set_other _ _ _ _ hn, Slots.set_other _ _ _ _ hn, h.later c n hn]

theorem filled (cfg : OutputConfig) (c : Chain) (k : ℕ) (h : Opened a a') (hf : Filled cfg (a.slots c) k) :
    Filled cfg (a'.slots c) k := hf.congr fun n hn => h.later c n hn

end Opened

theorem Quiet.opened (cfg : OutputConfig) {w w' : World} (h : Quiet w w') :
    Opened (w.archive cfg) (w'.archive cfg) := by
  rw [h.archive cfg]
  exact Opened.refl _

/-! ## openFiles -/

section Opening

variable (cfg : OutputConfig) (retryInterval : ℕ) (plan : Plan)

/-- A configured file is open and has its size; another one is not there. -/
def ReadyAt (w : World) (c : Chain) : Prop :=
  (c.Configured cfg → w.sink.isOpen c = true ∧ w.sink.good c = true ∧
    ∃ content, (w.archive cfg).slots c 0 = some content ∧ w.sink.size c = content.length) ∧
  (¬ c.Configured cfg → w.sink.isOpen c = false ∧ w.sink.size c = 0)

def Ready (w : World) : Prop := ∀ c, ReadyAt cfg w c

/-- The sink takes messages. -/
def InService (s : LogFile) : Prop := s.closed = false ∧ s.retryArmed = false

variable (hapart : Apart cfg)

/-- One file was opened, and nothing else happened. -/
structure OpenedFile (c : Chain) (w w' : World) : Prop where
  opened : Opened (w.archive cfg) (w'.archive cfg)
  running : w'.running = w.running
  ready : ReadyAt cfg w' c
  closed : w'.sink.closed = w.sink.closed
  armed : w'.sink.retryArmed = w.sink.retryArmed
  other : ∀ d, d ≠ c → w'.sink.isOpen d = w.sink.isOpen d ∧ w'.sink.good d = w.sink.good d ∧
    w'.sink.size d = w.sink.size d ∧
    (w'.archive cfg).slots d = (w.archive cfg).slots d

include hapart in
theorem openFile_rule (rotating : Bool) (c : Chain) (w : World)
    (hidle : w.sink.isOpen c = false ∧ w.sink.size c = 0) (harmed : w.sink.retryArmed = false)
    (Q : Bool → World → Prop) (E : Exit → World → Prop) (hok : ∀ w', OpenedFile cfg c w w' → Q true w')
    (hfail : ¬ plan.AllOk → ∀ w', Opened (w.archive cfg) (w'.archive cfg) → w'.running = w.running →
      Calm w'.sink →
        Down w'.sink → Q false w')
    (hexit : ¬ plan.AllOk → ∀ e w', Opened (w.archive cfg) (w'.archive cfg) → w'.running = w.running →
      Calm w'.sink → E e w') :
    wp (openFile cfg retryInterval plan rotating c) Q E w := by
  unfold openFile
  by_cases hc : c.file cfg = []
  · rw [if_pos hc]
    exact hok w ⟨Opened.refl _, rfl, ⟨fun h => absurd hc h, fun _ => hidle⟩, rfl, rfl,
      fun _ _ => ⟨rfl, rfl, rfl, rfl⟩⟩
  · have hcfg : c.Configured cfg := hc
    have hcalm : ∀ s : LogFile, s.retryArmed = w.sink.retryArmed → Calm s := by
      intro s hs h
      rw [hs, harmed] at h
      cases h
    rw [if_neg hc, wp_bind]
    unfold openStream
    simp only [wp_bind, wp_get, hidle.1, Bool.false_eq_true, if_false]
    apply attempt_rule
    · intro _
      simp only [setFile, onSink, wp_bind, wp_modify, wp_pure, if_pos]
      -- the stream is open now, and the file is there
      have hslot : (w.archive cfg).slots c 0 = w.disk (c.file cfg) := slots_active cfg w.disk c hcfg
      have harchive := archive_update cfg c 0 hapart hcfg (Nat.zero_le _)
        (some ((w.disk (c.file cfg)).getD [])) w
      have hopened := Opened.put (w.archive cfg) c
      rw [hslot, ← harchive] at hopened
      apply attempt_rule
      · intro _
        refine hok _ ⟨hopened, rfl, ⟨fun _ => ⟨by simp, by simp, ?_⟩, fun h => absurd hcfg h⟩, rfl, rfl, ?_⟩
        · refine ⟨(w.disk (c.file cfg)).getD [], ?_, by simp⟩
          exact (congrArg (fun a => a.slots c 0) harchive).trans (by rw [put_slots, Slots.set_same])
        · intro d hd
          refine ⟨by simp [hd], by simp [hd], by simp [hd], ?_⟩
          exact (congrArg (fun a => a.slots d) harchive).trans (put_slots_other c _ 0 _ d hd)
      · intro hbad message
        rw [wp_bind]
        refine wp_mono _ _ _ _ _ _ (failSink_quiet cfg retryInterval plan _ _) ?_ ?_
        · rintro - w' ⟨hq, hd⟩
          exact hfail (fun h => hbad (h _)) w' (hopened.trans (hq.opened cfg)) hq.running
            (hq.calm (hcalm _ rfl)) hd
        · intro e w' hq
          exact hexit (fun h => hbad (h _)) e w' (hopened.trans (hq.opened cfg)) hq.running
            (hq.calm (hcalm _ rfl))
      · intro hbad e
        exact hexit (fun h => hbad (h _)) e _ hopened rfl (hcalm _ rfl)
    · intro hbad message
      simp only [wp_pure, Bool.false_eq_true, if_false, wp_bind]
      refine wp_mono _ _ _ _ _ _ (failSink_quiet cfg retryInterval plan _ _) ?_ ?_
      · rintro - w' ⟨hq, hd⟩
        exact hfail (fun h => hbad (h _)) w' (hq.opened cfg) hq.running (hq.calm (hcalm _ rfl)) hd
      · intro e w' hq
        exact hexit (fun h => hbad (h _)) e w' (hq.opened cfg) hq.running (hq.calm (hcalm _ rfl))
    · intro hbad e
      exact hexit (fun h => hbad (h _)) e w (Opened.refl _) rfl (hcalm _ rfl)

/-- Where `openFiles` leaves a sink. -/
def OpenedOrDown (w w' : World) : Prop :=
  (Ready cfg w' ∧ w'.sink.closed = w.sink.closed ∧ w'.sink.retryArmed = false) ∨
    (Down w'.sink ∧ Calm w'.sink ∧ ¬ plan.AllOk)

include hapart in
theorem openFiles_spec (rotating : Bool) (w : World) (hidle : Idle w.sink)
    (harmed : w.sink.retryArmed = false) :
    wp (openFiles cfg retryInterval plan rotating)
      (fun _ w' => Opened (w.archive cfg) (w'.archive cfg) ∧ w'.running = w.running ∧
        OpenedOrDown cfg plan w w') (fun _ w' => Opened (w.archive cfg) (w'.archive cfg) ∧
          w'.running = w.running ∧ Calm w'.sink ∧ ¬ plan.AllOk) w := by
  unfold openFiles
  rw [wp_bind]
  apply openFile_rule cfg retryInterval plan hapart rotating .text w (hidle .text) harmed
  · intro w₁ h₁
    have hother := h₁.other .jsonl (by decide)
    have hidle₁ : w₁.sink.isOpen .jsonl = false ∧ w₁.sink.size .jsonl = 0 :=
      ⟨hother.1.trans (hidle .jsonl).1, hother.2.2.1.trans (hidle .jsonl).2⟩
    have harmed₁ : w₁.sink.retryArmed = false := h₁.armed.trans harmed
    simp only [if_pos, discard, Functor.discard]
    change wp (openFile cfg retryInterval plan rotating .jsonl >>= fun _ => pure ()) _ _ w₁
    rw [wp_bind]
    apply openFile_rule cfg retryInterval plan hapart rotating .jsonl w₁ hidle₁ harmed₁
    · intro w₂ h₂
      refine ⟨h₁.opened.trans h₂.opened, h₂.running.trans h₁.running, .inl ⟨?_, h₂.closed.trans h₁.closed, ?_⟩⟩
      · intro c
        cases c with
        | text =>
          obtain ⟨ho, hg, hs, hslots⟩ := h₂.other .text (by decide)
          unfold ReadyAt
          rw [ho, hg, hs, hslots]
          exact h₁.ready
        | jsonl => exact h₂.ready
      · exact h₂.armed.trans harmed₁
    · intro hbad w₂ hopened hrunning hcalm hdown
      exact ⟨h₁.opened.trans hopened, hrunning.trans h₁.running, .inr ⟨hdown, hcalm, hbad⟩⟩
    · intro hbad e w₂ hopened hrunning hcalm
      exact ⟨h₁.opened.trans hopened, hrunning.trans h₁.running, hcalm, hbad⟩
  · intro hbad w₁ hopened hrunning hcalm hdown
    exact ⟨hopened, hrunning, .inr ⟨hdown, hcalm, hbad⟩⟩
  · intro hbad e w₁ hopened hrunning hcalm
    exact ⟨hopened, hrunning, hcalm, hbad⟩

/-! ## rotate -/

/-- The part of a rotation that is about chain `c`; `done` when it went through. -/
structure Stage (c : Chain) (done : Bool) (w w' : World) : Prop where
  aged : Aged cfg c w w'
  absent : ¬ c.Configured cfg → w'.trace = w.trace
  moved : done = true → c.Configured cfg →
    archived cfg c (w'.archive cfg) = archived cfg c (w.archive cfg) ++ ((w.archive cfg).slots c 0).toList ∧
      (w'.archive cfg).slots c 0 = none
  filled : c.Configured cfg → 0 < cfg.maxFiles → ∀ k, Filled cfg ((w.archive cfg).slots c) k →
    (∃ b, (w.archive cfg).slots c 0 = some b ∧ b ≠ []) → Steady cfg plan ((w.archive cfg).slots c) c →
    (∃ k', Filled cfg ((w'.archive cfg).slots c) k' ∧ (done = true → k' = min (k + 1) cfg.maxFiles)) ∧
    Dropped cfg c k w w'

theorem Stage.untouched (c : Chain) {w w' : World} (h : Quiet w w') : Stage cfg plan c false w w' where
  aged := ((Raised.refl w).quiet h).aged
  absent _ := h.trace
  moved hf := by cases hf
  filled _ _ k hk _ _ := ⟨⟨k, by rw [h.archive cfg]; exact hk, fun hf => by cases hf⟩, .inl h.trace⟩

/-- Which state the sink was in before does not matter. -/
theorem Stage.sink {c : Chain} {done : Bool} {w w' : World} {s : LogFile}
    (h : Stage cfg plan c done { w with sink := s } w') (hs : Calm s) : Stage cfg plan c done w w' :=
  ⟨⟨h.aged.frame, fun _ => h.aged.calm hs, h.aged.contents⟩, h.absent, h.moved, h.filled⟩

include hapart in
theorem shiftChain_stage (c : Chain) (w : World) :
    wp (shiftChain cfg retryInterval plan c)
      (fun ok w' => Stage cfg plan c ok w w' ∧ (ok = true → w'.sink = w.sink) ∧
        (ok = false → Down w'.sink ∧ ¬ plan.AllOk))
      (fun _ w' => Stage cfg plan c false w w' ∧ ¬ plan.AllOk) w := by
  unfold shiftChain
  by_cases hc : c.file cfg = []
  · rw [if_pos hc]
    refine ⟨⟨(Raised.refl w).aged, fun _ => rfl, fun _ h => absurd hc h, fun h => absurd hc h⟩,
      fun _ => rfl, fun h => by cases h⟩
  · have hcfg : c.Configured cfg := hc
    rw [if_neg hc]
    -- both descriptions of the rotation at once
    have haged := shiftFiles_aged retryInterval plan hapart hcfg w
    by_cases hcase : 0 < cfg.maxFiles ∧ ∃ k, Filled cfg ((w.archive cfg).slots c) k ∧
        (∃ b, (w.archive cfg).slots c 0 = some b ∧ b ≠ []) ∧ Steady cfg plan ((w.archive cfg).slots c) c
    · obtain ⟨hpos, k, hk, hactive, hsteady⟩ := hcase
      have hfilled := shiftFiles_filled retryInterval plan hapart hcfg w k hpos hk hactive hsteady
      refine wp_mono _ _ _ _ _ _ (wp_and _ _ _ _ _ _ haged hfilled) ?_ ?_
      · rintro ok w' ⟨⟨ha, htrue, hfalse⟩, hf⟩
        refine ⟨⟨ha, fun hn => absurd hcfg hn, fun h _ => (htrue h).2, ?_⟩, fun h => (htrue h).1, hfalse⟩
        intro _ _ k' hk' _ _
        rw [hk.unique hk']
        exact hf
      · rintro e w' ⟨⟨ha, hbad⟩, ⟨k₁, hk₁⟩, hdropped⟩
        refine ⟨⟨ha, fun hn => absurd hcfg hn, fun h => (by cases h), ?_⟩, hbad⟩
        intro _ _ k' hk' _ _
        rw [hk.unique hk']
        exact ⟨⟨k₁, hk₁, fun h => by cases h⟩, hdropped⟩
    · refine wp_mono _ _ _ _ _ _ haged ?_ ?_
      · rintro ok w' ⟨ha, htrue, hfalse⟩
        refine ⟨⟨ha, fun hn => absurd hcfg hn, fun h _ => (htrue h).2, ?_⟩, fun h => (htrue h).1, hfalse⟩
        intro _ hpos k hk hactive hsteady
        exact absurd ⟨hpos, k, hk, hactive, hsteady⟩ hcase
      · rintro e w' ⟨ha, hbad⟩
        refine ⟨⟨ha, fun hn => absurd hcfg hn, fun h => (by cases h), ?_⟩, hbad⟩
        intro _ hpos k hk hactive hsteady
        exact absurd ⟨hpos, k, hk, hactive, hsteady⟩ hcase

/-- A rotation: first the text chain, then the jsonl chain, then the files are opened. -/
def Rotated (done : Bool) (w w' : World) : Prop :=
  ∃ w₁ w₂ text jsonl, Stage cfg plan .text text w w₁ ∧ Stage cfg plan .jsonl jsonl w₁ w₂ ∧
    Opened (w₂.archive cfg) (w'.archive cfg) ∧ (done = true → text = true ∧ jsonl = true)

include hapart in
theorem rotate_spec (w : World) (harmed : w.sink.retryArmed = false) :
    wp (rotate cfg retryInterval plan)
      (fun _ w' => w'.running = w.running ∧
        ((Rotated cfg plan true w w' ∧ Ready cfg w' ∧ w'.sink.closed = w.sink.closed ∧
          w'.sink.retryArmed = false) ∨
            (Rotated cfg plan false w w' ∧ Down w'.sink ∧ Calm w'.sink ∧ ¬ plan.AllOk)))
      (fun _ w' => w'.running = w.running ∧ Rotated cfg plan false w w' ∧ Calm w'.sink ∧ ¬ plan.AllOk) w := by
  have hcalm : Calm { w.sink with isOpen := fun _ => false, size := fun _ => 0 } := by
    intro h
    change w.sink.retryArmed = true at h
    rw [harmed] at h
    cases h
  unfold rotate closeFiles onSink
  rw [wp_bind, wp_modify, wp_bind]
  refine wp_mono _ _ _ _ _ _ (shiftChain_stage cfg retryInterval plan hapart .text _) ?_ ?_
  · rintro ok w₁ ⟨hs₁, htrue₁, hfalse₁⟩
    have hstage := Stage.sink cfg plan hs₁ hcalm
    cases ok with
    | false =>
      obtain ⟨hdown, hbad⟩ := hfalse₁ rfl
      refine ⟨hs₁.aged.frame.running, .inr ⟨?_, hdown, hs₁.aged.calm hcalm, hbad⟩⟩
      exact ⟨w₁, w₁, false, false, hstage, Stage.untouched cfg plan .jsonl (Quiet.refl w₁), Opened.refl _,
        fun h => by cases h⟩
    | true =>
      rw [if_pos rfl, wp_bind]
      have hsink₁ := htrue₁ rfl
      refine wp_mono _ _ _ _ _ _ (shiftChain_stage cfg retryInterval plan hapart .jsonl w₁) ?_ ?_
      · rintro ok w₂ ⟨hs₂, htrue₂, hfalse₂⟩
        have hrunning : w₂.running = w.running := hs₂.aged.frame.running.trans hs₁.aged.frame.running
        cases ok with
        | false =>
          obtain ⟨hdown, hbad⟩ := hfalse₂ rfl
          refine ⟨hrunning, .inr ⟨?_, hdown, hs₂.aged.calm (hs₁.aged.calm hcalm), hbad⟩⟩
          exact ⟨w₁, w₂, true, false, hstage, hs₂, Opened.refl _, fun h => by cases h⟩
        | true =>
          have hsink₂ := (htrue₂ rfl).trans hsink₁
          have hidle : Idle w₂.sink := by rw [hsink₂]; exact fun _ => ⟨rfl, rfl⟩
          have harmed₂ : w₂.sink.retryArmed = false := by rw [hsink₂]; exact harmed
          rw [if_pos rfl]
          refine wp_mono _ _ _ _ _ _ (openFiles_spec cfg retryInterval plan hapart true w₂ hidle harmed₂) ?_ ?_
          · rintro - w' ⟨hopened, hrun, hend⟩
            refine ⟨hrun.trans hrunning, ?_⟩
            cases hend with
            | inl h =>
              refine .inl ⟨⟨w₁, w₂, true, true, hstage, hs₂, hopened, fun _ => ⟨rfl, rfl⟩⟩, h.1, ?_, h.2.2⟩
              rw [h.2.1, hsink₂]
            | inr h =>
              exact .inr ⟨⟨w₁, w₂, true, true, hstage, hs₂, hopened, fun _ => ⟨rfl, rfl⟩⟩, h⟩
          · rintro e w' ⟨hopened, hrun, hcalm', hbad⟩
            exact ⟨hrun.trans hrunning, ⟨w₁, w₂, true, true, hstage, hs₂, hopened, fun _ => ⟨rfl, rfl⟩⟩,
              hcalm', hbad⟩
      · rintro e w₂ ⟨hs₂, hbad⟩
        refine ⟨hs₂.aged.frame.running.trans hs₁.aged.frame.running, ?_,
          hs₂.aged.calm (hs₁.aged.calm hcalm), hbad⟩
        exact ⟨w₁, w₂, true, false, hstage, hs₂, Opened.refl _, fun h => by cases h⟩
  · rintro e w₁ ⟨hs₁, hbad⟩
    refine ⟨hs₁.aged.frame.running, ?_, hs₁.aged.calm hcalm, hbad⟩
    exact ⟨w₁, w₁, false, false, Stage.sink cfg plan hs₁ hcalm,
      Stage.untouched cfg plan .jsonl (Quiet.refl w₁), Opened.refl _, fun h => by cases h⟩

end Opening

end Minilog.Output
