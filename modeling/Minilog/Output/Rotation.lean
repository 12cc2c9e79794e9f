import Minilog.Output.Archive

/-! What a rotation does to the files of a chain.

Two descriptions of `shiftFiles`, one for each kind of result. `shiftFiles_aged` holds for every fault:
whatever happens, the contents of the chain stay where they are in its history or the active file becomes the
newest generation. `shiftFiles_filled` is about generations without gaps: they stay so unless a fault comes
between two renames. -/
namespace Minilog.Output
open Lib Lib.Effect
open Minilog.Parser Minilog.Server
set_option autoImplicit false

/-! ## History -/

def Deed.gone (c : Chain) : Deed → Option Bytes
  | .removed d _ content _ => if d = c then some content else none
  | .replaced d content => if d = c then some content else none
  | .wrote _ _ => none

def Deed.line (c : Chain) : Deed → Option Bytes
  | .wrote d line => if d = c then some line else none
  | _ => none

/-- The contents of the generations a chain has lost, oldest first. -/
def gone (c : Chain) (trace : List Deed) : List Bytes := trace.filterMap (Deed.gone c)

/-- The lines that were written to a chain. -/
def written (c : Chain) (trace : List Deed) : List Bytes := trace.filterMap (Deed.line c)

section History

variable (cfg : OutputConfig) (c : Chain)

/-- All contents a chain has had, oldest first. -/
def history (a : Archive) : List Bytes := gone c a.trace ++ (a.slots c).listing (depth cfg + 1)

/-- The same without the active file. -/
def archived (a : Archive) : List Bytes := gone c a.trace ++ ((a.slots c).set 0 none).listing (depth cfg + 1)

theorem history_eq (a : Archive) : history cfg c a = archived cfg c a ++ (a.slots c 0).toList := by
  unfold history archived
  rw [Slots.listing_zero, List.append_assoc]

/-- Slot `n + 1` can take a file: it is free, or nothing lies behind it. -/
def Free (a : Archive) (n : ℕ) : Prop := a.slots c (n + 1) = none ∨ n + 1 = depth cfg

theorem put_slots (a : Archive) (n : ℕ) (v : Option Bytes) : (a.put c n v).slots c = (a.slots c).set n v :=
  Function.update_self ..

theorem put_slots_other (a : Archive) (n : ℕ) (v : Option Bytes) (d : Chain) (hd : d ≠ c) :
    (a.put c n v).slots d = a.slots d := Function.update_of_ne hd ..

theorem move_slots (a : Archive) (n : ℕ) : (a.move c n).slots c = (a.slots c).move n := by
  unfold Archive.move Slots.move
  split
  · rfl
  · rw [put_slots, put_slots]
    rfl

theorem move_slots_other (a : Archive) (n : ℕ) (d : Chain) (hd : d ≠ c) : (a.move c n).slots d = a.slots d := by
  unfold Archive.move
  split
  · rfl
  · rw [put_slots_other c _ n none d hd, put_slots_other c _ (n + 1) _ d hd]
    rfl

theorem move_trace (a : Archive) (n : ℕ) (hfree : a.slots c (n + 1) = none) : (a.move c n).trace = a.trace := by
  unfold Archive.move
  split
  · rfl
  · change a.trace ++ (a.slots c (n + 1)).toList.map (Deed.replaced c) = a.trace
    rw [hfree]
    exact List.append_nil _

theorem move_frame (a : Archive) (n : ℕ) : (a.move c n).outside = a.outside ∧
    (a.move c n).running = a.running := by
  unfold Archive.move
  split
  · exact ⟨rfl, rfl⟩
  · exact ⟨rfl, rfl⟩

theorem written_move (a : Archive) (n : ℕ) (d : Chain) : written d (a.move c n).trace = written d a.trace := by
  unfold Archive.move
  split
  · rfl
  · change written d (a.trace ++ (a.slots c (n + 1)).toList.map (Deed.replaced c)) = written d a.trace
    unfold written
    rw [List.filterMap_append]
    cases a.slots c (n + 1) with
    | none => exact List.append_nil _
    | some old => exact List.append_nil _

theorem gone_move_other (a : Archive) (n : ℕ) (d : Chain) (hd : d ≠ c) :
    gone d (a.move c n).trace = gone d a.trace := by
  unfold Archive.move
  split
  · rfl
  · change gone d (a.trace ++ (a.slots c (n + 1)).toList.map (Deed.replaced c)) = gone d a.trace
    unfold gone
    rw [List.filterMap_append]
    cases a.slots c (n + 1) with
    | none => exact List.append_nil _
    | some old =>
      have hother : Deed.gone d (.replaced c old) = none := if_neg (Ne.symm hd)
      rw [Option.toList_some, List.map_singleton, List.filterMap_cons_none hother]
      exact List.append_nil _

/-- Moving a file up keeps the history, also over the last slot. -/
theorem history_move (a : Archive) (n : ℕ) (hn : n + 1 ≤ depth cfg) (hfree : Free cfg c a n) :
    history cfg c (a.move c n) = history cfg c a := by
  unfold history
  by_cases hv : a.slots c (n + 1) = none
  · rw [move_slots, move_trace c a n hv, Slots.listing_move _ n _ hv (by omega)]
  · have htop : n + 1 = depth cfg := hfree.resolve_left hv
    obtain ⟨old, hold⟩ := Option.ne_none_iff_exists'.mp hv
    by_cases hs : a.slots c n = none
    · have hsame : a.move c n = a := if_pos hs
      rw [hsame]
    · -- without the file that is replaced, this is a move to a free slot
      have hvac : (a.slots c).set (n + 1) none (n + 1) = none := Slots.set_same ..
      have hkeep : (a.slots c).set (n + 1) none n = a.slots c n := Slots.set_other _ _ _ _ (by omega)
      have hmove : (a.slots c).move n = ((a.slots c).set (n + 1) none).move n := by
        funext m
        rw [Slots.move_apply _ n m hvac, hkeep]
        unfold Slots.move
        rw [if_neg hs]
        by_cases hm : m = n
        · rw [hm, Slots.set_same, if_pos rfl]
        · rw [Slots.set_other _ _ _ _ hm, if_neg hm]
          by_cases hm' : m = n + 1
          · rw [hm', Slots.set_same, if_pos rfl]
          · rw [Slots.set_other _ _ _ _ hm', if_neg hm', Slots.set_other _ _ _ _ hm']
      have htrace : (a.move c n).trace = a.trace ++ [.replaced c old] := by
        unfold Archive.move
        rw [if_neg hs, hold]
        rfl
      have hgone : gone c [.replaced c old] = [old] := by simp [gone, Deed.gone]
      rw [move_slots, hmove, htrace, Slots.listing_move _ n _ hvac (by omega),
        Slots.listing_top (a.slots c) (n + 1) (depth cfg + 1) (by omega) (fun k hk hk' => by omega), hold]
      unfold gone at hgone ⊢
      rw [List.filterMap_append, hgone, List.append_assoc]
      rfl

/-- Removing the last generation moves it to the lost ones. -/
theorem history_remove (a : Archive) (n : ℕ) (content : Bytes) (before : Disk) (hn : n = depth cfg)
    (hold : a.slots c n = some content) :
    history cfg c ((a.add [.removed c n content before]).put c n none) = history cfg c a := by
  have hgone : gone c [.removed c n content before] = [content] := by simp [gone, Deed.gone]
  unfold history
  rw [put_slots]
  change gone c (a.trace ++ [.removed c n content before]) ++
    ((a.slots c).set n none).listing (depth cfg + 1) = _
  rw [Slots.listing_top (a.slots c) n (depth cfg + 1) (by omega) (fun k hk hk' => by omega), hold]
  unfold gone at hgone ⊢
  rw [List.filterMap_append, hgone, List.append_assoc]
  rfl

end History

/-! ## Looking for the highest generation -/

section Rotate

variable (cfg : OutputConfig) (retryInterval : ℕ) (plan : Plan) (hapart : Apart cfg) (c : Chain)
  (hc : c.Configured cfg)

/-- Every call ends well. -/
def Plan.AllOk (plan : Plan) : Prop := ∀ call, plan.Ok call

/-- Above `h` no slot up to `limit` is in use, and `h` is. -/
def Highest (s : Slots Bytes) (limit h : ℕ) : Prop :=
  h ≤ limit ∧ (h = 0 ∨ s h ≠ none) ∧ ∀ m, h < m → m ≤ limit → s m = none

include hc in
theorem findHighest_rule (left n highest : ℕ) (hleft : n + left ≤ depth cfg + 1) (hbelow : highest < n)
    (w : World) (hused : highest = 0 ∨ slots cfg w.disk c highest ≠ none)
    (hvac : ∀ m, highest < m → m < n → slots cfg w.disk c m = none) (Q : Option ℕ → World → Prop)
    (E : Exit → World → Prop) (hok : ∀ h, Highest (slots cfg w.disk c) (n + left - 1) h → Q (some h) w)
    (hfail : ¬ plan.AllOk → ∀ w', Quiet w w' → Down w'.sink → Q none w')
    (hexit : ¬ plan.AllOk → ∀ e w', Quiet w w' → E e w') :
    wp (findHighest cfg retryInterval plan c left n highest) Q E w := by
  induction left generalizing n highest with
  | zero => exact hok highest ⟨by omega, hused, fun m hm hm' => hvac m hm (by omega)⟩
  | succ left ih =>
    have hslot : slots cfg w.disk c n = w.disk (c.path cfg n) := slots_apply cfg w.disk c n hc (by omega)
    have hlimit : n + (left + 1) - 1 = n + 1 + left - 1 := by omega
    rw [hlimit] at hok
    unfold findHighest
    rw [wp_bind]
    apply probeFile_rule
    · intro _
      cases hf : w.disk (c.path cfg n) with
      | none =>
        refine ih (n + 1) highest (by omega) (by omega) hused ?_ hok
        intro m hm hm'
        by_cases hmn : m = n
        · rw [hmn, hslot, hf]
        · exact hvac m hm (by omega)
      | some content =>
        refine ih (n + 1) n (by omega) (by omega) (.inr ?_) (fun m hm hm' => by omega) hok
        rw [hslot, hf]
        exact Option.some_ne_none content
    · intro hbad w' hq hd
      exact hfail (fun h => hbad (h _)) w' hq hd
    · intro hbad e w' hq
      exact hexit (fun h => hbad (h _)) e w' hq

/-! ## Making room -/

/-- `w'` is `w` with room for one more generation: either the highest generation is `h` and not the last one,
or the last one has been removed. -/
inductive Cleared (w : World) : World → ℕ → Prop
  | keep (h : ℕ) (hh : Highest (slots cfg w.disk c) (probeLimit cfg) h) (hlast : 0 < cfg.maxFiles →
    h < cfg.maxFiles) :
    Cleared w w h
  | drop (w' : World) (content : Bytes) (hpos : 0 < cfg.maxFiles) (hold : slots cfg w.disk c cfg.maxFiles =
    some content) (hsink : w'.sink = w.sink) (harchive : w'.archive cfg =
      ((w.archive cfg).add [.removed c cfg.maxFiles content w.disk]).put c cfg.maxFiles none) :
    Cleared w w' (cfg.maxFiles - 1)

theorem depth_pos (hpos : 0 < cfg.maxFiles) : depth cfg = cfg.maxFiles := if_neg (by omega)

theorem probeLimit_pos (hpos : 0 < cfg.maxFiles) : probeLimit cfg = cfg.maxFiles := if_pos hpos

theorem probeLimit_le : probeLimit cfg ≤ depth cfg := by
  unfold probeLimit depth generationLimit
  split
  · next h => rw [if_neg (by omega)]
  · next h => rw [if_pos (by omega)]; omega

include hapart hc in
/-- The loop goes over the last generation only. -/
theorem removeOld_rule (hpos : 0 < cfg.maxFiles) (w : World) (hused : slots cfg w.disk c cfg.maxFiles ≠ none)
    (Q : Bool → World → Prop) (E : Exit → World → Prop)
    (hok : ∀ w', Cleared cfg c w w' (cfg.maxFiles - 1) → Q true w')
    (hfail : ¬ plan.AllOk → ∀ w', Quiet w w' → Down w'.sink → Q false w')
    (hexit : ¬ plan.AllOk → ∀ e w', Quiet w w' → E e w') :
    wp (removeOld cfg retryInterval plan c cfg.maxFiles) Q E w := by
  obtain ⟨m, hm⟩ : ∃ m, cfg.maxFiles = m + 1 := ⟨cfg.maxFiles - 1, by omega⟩
  have hdepth : m + 1 ≤ depth cfg := by rw [depth_pos cfg hpos]; omega
  obtain ⟨content, hold⟩ := Option.ne_none_iff_exists'.mp hused
  have hfile : w.disk (c.path cfg (m + 1)) = some content := by
    rw [← slots_apply cfg w.disk c (m + 1) hc hdepth, ← hm, hold]
  have hrest : ∀ w', wp (removeOld cfg retryInterval plan c m) Q E w' = Q true w' := by
    intro w'
    cases m with
    | zero => rfl
    | succ k =>
      unfold removeOld
      rw [if_pos (by omega), wp_pure]
  have hunfold : removeOld cfg retryInterval plan c cfg.maxFiles = removeOld cfg retryInterval plan c
      (m + 1) := by rw [hm]
  rw [hunfold]
  unfold removeOld
  rw [if_neg (by omega), wp_bind]
  apply probeFile_rule
  · intro _
    rw [hfile]
    simp only [Option.isSome_some, wp_bind]
    apply attempt_rule
    · intro _
      simp only [note, setFile, wp_bind, wp_get, wp_modify]
      rw [hrest]
      refine hok _ (.drop _ content hpos hold rfl ?_)
      rw [hfile, hm]
      exact archive_update cfg c (m + 1) hapart hc hdepth none
        { w with trace := w.trace ++ [.removed c (m + 1) content w.disk] }
    · intro hbad message
      rw [wp_bind]
      refine wp_mono _ _ _ _ _ _ (failSink_quiet cfg retryInterval plan _ w) ?_
        (fun e w' hq => hexit (fun h => hbad (h _)) e w' hq)
      rintro - w' ⟨hq, hd⟩
      exact hfail (fun h => hbad (h _)) w' hq hd
    · intro hbad e
      exact hexit (fun h => hbad (h _)) e w (Quiet.refl w)
  · intro hbad w' hq hd
    exact hfail (fun h => hbad (h _)) w' hq hd
  · intro hbad e w' hq
    exact hexit (fun h => hbad (h _)) e w' hq

include hapart hc in
theorem shiftFiles_rule (w : World) (Q : Bool → World → Prop) (E : Exit → World → Prop)
    (hshift : ∀ w' h, Cleared cfg c w w' h → wp (shiftDown cfg retryInterval plan c h) Q E w')
    (hfail : ¬ plan.AllOk → ∀ w', Quiet w w' → Down w'.sink → Q false w')
    (hexit : ¬ plan.AllOk → ∀ e w', Quiet w w' → E e w') : wp (shiftFiles cfg retryInterval plan c) Q E w := by
  unfold shiftFiles
  rw [wp_bind]
  have hle := probeLimit_le cfg
  refine findHighest_rule cfg retryInterval plan c hc _ 1 0 (by omega) (by omega) w (.inl rfl)
    (fun m hm hm' => by omega) _ _ ?_ hfail hexit
  intro h hh
  rw [Nat.add_sub_cancel_left] at hh
  by_cases hfull : 0 < cfg.maxFiles ∧ cfg.maxFiles ≤ h
  · have hlast : h = cfg.maxFiles := by
      have hbound := hh.1
      rw [probeLimit_pos cfg hfull.1] at hbound
      omega
    simp only [if_pos hfull, wp_bind]
    rw [hlast]
    refine removeOld_rule cfg retryInterval plan hapart c hc hfull.1 w ?_ _ _
      (fun w' hw' => hshift w' _ hw') hfail hexit
    rw [← hlast]
    exact hh.2.1.resolve_left (by omega)
  · simp only [if_neg hfull]
    exact hshift w h (.keep h hh (by omega))

/-! ## Whatever happens -/

/-- Only chain `c` is touched, and no line is written. -/
structure Frame (c : Chain) (a a' : Archive) : Prop where
  outside : a'.outside = a.outside
  running : a'.running = a.running
  written : ∀ d, written d a'.trace = written d a.trace
  slots : ∀ d, d ≠ c → a'.slots d = a.slots d
  gone : ∀ d, d ≠ c → gone d a'.trace = gone d a.trace

namespace Frame

theorem refl (a : Archive) : Frame c a a := ⟨rfl, rfl, fun _ => rfl, fun _ _ => rfl, fun _ _ => rfl⟩

theorem trans (a a' a'' : Archive) (h : Frame c a a') (h' : Frame c a' a'') : Frame c a a'' where
  outside := h'.outside.trans h.outside
  running := h'.running.trans h.running
  written d := (h'.written d).trans (h.written d)
  slots d hd := (h'.slots d hd).trans (h.slots d hd)
  gone d hd := (h'.gone d hd).trans (h.gone d hd)

theorem move (a : Archive) (n : ℕ) : Frame c a (a.move c n) where
  outside := (move_frame c a n).1
  running := (move_frame c a n).2
  written d := written_move c a n d
  slots d hd := move_slots_other c a n d hd
  gone d hd := gone_move_other c a n d hd

theorem remove (a : Archive) (n : ℕ) (content : Bytes) (before : Disk) :
    Frame c a ((a.add [.removed c n content before]).put c n none) where
  outside := rfl
  running := rfl
  written d := by
    change Output.written d (a.trace ++ [.removed c n content before]) = _
    simp [Output.written, Deed.line]
  slots d hd := put_slots_other c _ n none d hd
  gone d hd := by
    change Output.gone d (a.trace ++ [.removed c n content before]) = _
    simp [Output.gone, Deed.gone, Ne.symm hd]

end Frame

/-- The generations of the chain may have moved, its history and its active file have not. -/
structure Raised (w w' : World) : Prop where
  frame : Frame c (w.archive cfg) (w'.archive cfg)
  history : history cfg c (w'.archive cfg) = history cfg c (w.archive cfg)
  active : (w'.archive cfg).slots c 0 = (w.archive cfg).slots c 0
  calm : Calm w.sink → Calm w'.sink

/-- As `Raised`, or else the active file has become the newest generation. -/
structure Aged (w w' : World) : Prop where
  frame : Frame c (w.archive cfg) (w'.archive cfg)
  calm : Calm w.sink → Calm w'.sink
  contents : (archived cfg c (w'.archive cfg) = archived cfg c (w.archive cfg) ∧
      (w'.archive cfg).slots c 0 = (w.archive cfg).slots c 0) ∨
    (archived cfg c (w'.archive cfg) = archived cfg c (w.archive cfg) ++ ((w.archive cfg).slots c 0).toList ∧
      (w'.archive cfg).slots c 0 = none)

variable {cfg} {c}

theorem Raised.refl (w : World) : Raised cfg c w w := ⟨Frame.refl c _, rfl, rfl, id⟩

theorem Raised.trans {w w' w'' : World} (h : Raised cfg c w w') (h' : Raised cfg c w' w'') :
    Raised cfg c w w'' where
  frame := Frame.trans c _ _ _ h.frame h'.frame
  history := h'.history.trans h.history
  active := h'.active.trans h.active
  calm := h'.calm ∘ h.calm

theorem Raised.quiet {w w' w'' : World} (h : Raised cfg c w w') (hq : Quiet w' w'') : Raised cfg c w w'' := by
  refine h.trans ?_
  have ha := hq.archive cfg
  exact ⟨ha ▸ Frame.refl c _, by rw [ha], by rw [ha], hq.calm⟩

theorem Raised.aged {w w' : World} (h : Raised cfg c w w') : Aged cfg c w w' := by
  refine ⟨h.frame, h.calm, .inl ⟨?_, h.active⟩⟩
  have heq := h.history
  rw [history_eq, history_eq, h.active] at heq
  exact List.append_cancel_right heq

/-- After the generations, the active file. -/
theorem Raised.last {w w' w'' : World} (h : Raised cfg c w w') (hd : 1 ≤ depth cfg)
    (hfree : Free cfg c (w'.archive cfg) 0) (hmove : w''.archive cfg = (w'.archive cfg).move c 0)
    (hsink : w''.sink = w'.sink) :
    Aged cfg c w w'' ∧ archived cfg c (w''.archive cfg) = archived cfg c (w.archive cfg) ++
    ((w.archive cfg).slots c 0).toList ∧
      (w''.archive cfg).slots c 0 = none := by
  have hnone : (w''.archive cfg).slots c 0 = none := by
    rw [hmove, move_slots]
    unfold Slots.move
    split
    · next hnone => exact hnone
    · exact Slots.set_same ..
  have hhistory := history_move cfg c _ 0 hd hfree
  rw [← hmove, h.history, history_eq, history_eq cfg c (w.archive cfg), hnone, Option.toList_none,
    List.append_nil] at hhistory
  have hframe : Frame c (w.archive cfg) (w''.archive cfg) :=
    Frame.trans c _ _ _ h.frame (hmove ▸ Frame.move c _ 0)
  exact ⟨⟨hframe, fun hcalm => hsink ▸ h.calm hcalm, .inr ⟨hhistory, hnone⟩⟩, hhistory, hnone⟩

/-- Making room only loses the last generation to the history. -/
theorem Cleared.raised {w w' : World} {h : ℕ} (hcl : Cleared cfg c w w' h) :
    Raised cfg c w w' ∧ w'.sink = w.sink ∧ h + 1 ≤ depth cfg ∧ Free cfg c (w'.archive cfg) h := by
  cases hcl with
  | keep h hh hlast =>
    refine ⟨Raised.refl w, rfl, ?_⟩
    by_cases hpos : 0 < cfg.maxFiles
    · have hlimit := probeLimit_pos cfg hpos
      have hdepth := depth_pos cfg hpos
      have hlt := hlast hpos
      exact ⟨by omega, .inl (hh.2.2 (h + 1) (by omega) (by omega))⟩
    · have hlimit : probeLimit cfg = 1000 := if_neg hpos
      have hdepth : depth cfg = 1000 + 1 := if_pos (by omega)
      have hle := hh.1
      by_cases htop : h = 1000
      · exact ⟨by omega, .inr (by omega)⟩
      · exact ⟨by omega, .inl (hh.2.2 (h + 1) (by omega) (by omega))⟩
  | drop w' content hpos hold hsink harchive =>
    have hdepth := depth_pos cfg hpos
    have hzero : (w'.archive cfg).slots c 0 = (w.archive cfg).slots c 0 := by
      rw [harchive, put_slots, Slots.set_other _ _ _ _ (by omega)]
      rfl
    have hframe : Frame c (w.archive cfg) (w'.archive cfg) := by
      rw [harchive]
      exact Frame.remove c _ _ _ _
    have hhistory : history cfg c (w'.archive cfg) = history cfg c (w.archive cfg) := by
      rw [harchive]
      exact history_remove cfg c _ _ content w.disk hdepth.symm hold
    refine ⟨⟨hframe, hhistory, hzero, fun hcalm => hsink ▸ hcalm⟩, hsink, by omega, .inl ?_⟩
    rw [show cfg.maxFiles - 1 + 1 = cfg.maxFiles by omega, harchive, put_slots, Slots.set_same]

include hapart hc in
theorem shiftUp_raised (n : ℕ) (hn : n + 1 ≤ depth cfg) (w : World) (hfree : Free cfg c (w.archive cfg) n) :
    wp (shiftUp cfg retryInterval plan c n)
      (fun ok w' => Raised cfg c w w' ∧ (ok = true → w'.sink = w.sink ∧ Free cfg c (w'.archive cfg) 0) ∧
        (ok = false → Down w'.sink ∧ ¬ plan.AllOk))
      (fun _ w' => Raised cfg c w w' ∧ ¬ plan.AllOk) w := by
  induction n generalizing w with
  | zero => exact ⟨Raised.refl w, fun _ => ⟨rfl, hfree⟩, fun h => by cases h⟩
  | succ n ih =>
    unfold shiftUp
    rw [wp_bind]
    have hblame : ¬ (plan.Ok (.probeShift c (n + 1)) ∧ plan.Ok (.rename c (n + 1))) → ¬ plan.AllOk :=
      fun hbad h => hbad ⟨h _, h _⟩
    apply shiftOne_rule cfg retryInterval plan hapart c hc (n + 1) hn
    · intro _ w₁ hmove hsink
      have hraised : Raised cfg c w w₁ := by
        refine ⟨hmove ▸ Frame.move c _ _,
          by rw [hmove, history_move cfg c _ _ hn hfree], ?_, fun h => hsink ▸ h⟩
        rw [hmove, move_slots]
        unfold Slots.move
        split
        · rfl
        · rw [Slots.set_other _ _ _ _ (by omega), Slots.set_other _ _ _ _ (by omega)]
      have hnext : Free cfg c (w₁.archive cfg) n := by
        left
        rw [hmove, move_slots]
        unfold Slots.move
        split
        · next hnone => exact hnone
        · exact Slots.set_same ..
      refine wp_mono _ _ _ _ _ _ (ih (by omega) w₁ hnext) ?_ ?_
      · rintro ok w' ⟨hr, htrue, hfalse⟩
        exact ⟨hraised.trans hr, fun h => ⟨(htrue h).1.trans hsink, (htrue h).2⟩, hfalse⟩
      · rintro e w' ⟨hr, hbad⟩
        exact ⟨hraised.trans hr, hbad⟩
    · intro hbad w' hq hd
      exact ⟨(Raised.refl w).quiet hq, fun h => (by cases h), fun _ => ⟨hd, hblame hbad⟩⟩
    · intro hbad e w' hq
      exact ⟨(Raised.refl w).quiet hq, hblame hbad⟩

include hapart hc in
/-- A rotation of a chain keeps its contents in order, wherever it stops. -/
theorem shiftFiles_aged (w : World) :
    wp (shiftFiles cfg retryInterval plan c)
      (fun ok w' => Aged cfg c w w' ∧
        (ok = true → w'.sink = w.sink ∧
          archived cfg c (w'.archive cfg) = archived cfg c (w.archive cfg) ++
          ((w.archive cfg).slots c 0).toList ∧
          (w'.archive cfg).slots c 0 = none) ∧
        (ok = false → Down w'.sink ∧ ¬ plan.AllOk))
      (fun _ w' => Aged cfg c w w' ∧ ¬ plan.AllOk) w := by
  apply shiftFiles_rule cfg retryInterval plan hapart c hc
  · intro w₁ h hcl
    obtain ⟨hr₁, hs₁, hdepth, hfree⟩ := hcl.raised
    unfold shiftDown
    rw [wp_bind]
    refine wp_mono _ _ _ _ _ _ (shiftUp_raised retryInterval plan hapart hc h hdepth w₁ hfree) ?_ ?_
    · rintro ok w₂ ⟨hr₂, htrue, hfalse⟩
      have hr := hr₁.trans hr₂
      cases ok with
      | false => exact ⟨hr.aged, fun h => (by cases h), fun _ => hfalse rfl⟩
      | true =>
        obtain ⟨hs₂, hfree₂⟩ := htrue rfl
        have hblame : ¬ (plan.Ok (.probeShift c 0) ∧ plan.Ok (.rename c 0)) → ¬ plan.AllOk :=
          fun hbad h => hbad ⟨h _, h _⟩
        rw [if_pos rfl]
        apply shiftOne_rule cfg retryInterval plan hapart c hc 0 (by omega)
        · intro _ w' hmove hsink
          obtain ⟨haged, hend⟩ := hr.last (by omega) hfree₂ hmove hsink
          exact ⟨haged, fun _ => ⟨hsink.trans (hs₂.trans hs₁), hend⟩, fun h => by cases h⟩
        · intro hbad w' hq hd
          exact ⟨(hr.quiet hq).aged, fun h => (by cases h), fun _ => ⟨hd, hblame hbad⟩⟩
        · intro hbad e w' hq
          exact ⟨(hr.quiet hq).aged, hblame hbad⟩
    · rintro e w' ⟨hr₂, hbad⟩
      exact ⟨(hr₁.trans hr₂).aged, hbad⟩
  · intro hbad w' hq hd
    exact ⟨((Raised.refl w).quiet hq).aged, fun h => (by cases h), fun _ => ⟨hd, hbad⟩⟩
  · intro hbad e w' hq
    exact ⟨((Raised.refl w).quiet hq).aged, hbad⟩

end Rotate

end Minilog.Output
