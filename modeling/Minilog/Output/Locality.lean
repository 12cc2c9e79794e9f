import Minilog.Lib.Confined
import Minilog.Output.Handlers

/-! A sink works on its own files.

`World.inside` is what a sink can see of the world: its state and the files it owns. Every handler does the
same there as in the whole world, and leaves all other files alone (`handler_local`). A handler that is not
killed returns: no exception gets past `guarded`. -/
namespace Minilog.Output
open Lib Lib.Effect
open Minilog.Parser Minilog.Server
set_option autoImplicit false

open Classical in
/-- The files of a sink. -/
noncomputable def inside (cfg : OutputConfig) (disk : Disk) : Disk :=
  fun p => if Owns cfg p then disk p else none

noncomputable def Deed.inside (cfg : OutputConfig) : Deed → Deed
  | .removed c n content before => .removed c n content (Output.inside cfg before)
  | deed => deed

noncomputable def World.inside (cfg : OutputConfig) (w : World) : World :=
  { w with disk := Output.inside cfg w.disk, trace := w.trace.map (Deed.inside cfg) }

/-- No call is the end of the process. -/
def Plan.Lives (plan : Plan) : Prop := ∀ call, plan.outcome call ≠ .killed

theorem Plan.AllOk.lives {plan : Plan} (h : plan.AllOk) : plan.Lives := by
  intro call hkilled
  have hok := h call
  unfold Plan.Ok at hok
  rw [hok] at hkilled
  cases hkilled

section Part

variable (cfg : OutputConfig)

/-- What a sink sees and changes; it never opens a stream that is not configured. -/
noncomputable def sinkPart (exits : Exit → Prop) : Part World (Disk × Bool) Exit where
  own := World.inside cfg
  rest w := (outside cfg w.disk, w.running)
  fits w := ∀ c, w.sink.isOpen c = true → c.Configured cfg
  exits := exits

/-- Only an exception ends it early. -/
noncomputable abbrev raising : Part World (Disk × Bool) Exit := sinkPart cfg fun e => ∃ what, e = .raised what

/-- Nothing ends it early. -/
noncomputable abbrev returning : Part World (Disk × Bool) Exit := sinkPart cfg fun _ => False

theorem inside_apply (disk : Disk) (p : Bytes) (hp : Owns cfg p) : inside cfg disk p = disk p := if_pos hp

theorem inside_update (disk : Disk) (p : Bytes) (v : Option Bytes) (hp : Owns cfg p) :
    inside cfg (Function.update disk p v) = Function.update (inside cfg disk) p v := by
  funext q
  unfold inside
  by_cases hq : q = p
  · rw [hq, Function.update_self, Function.update_self, if_pos hp]
  · rw [Function.update_of_ne hq, Function.update_of_ne hq]

theorem outside_set (disk : Disk) (p : Bytes) (v : Option Bytes) (hp : Owns cfg p) :
    outside cfg (Function.update disk p v) = outside cfg disk := by
  obtain ⟨c, n, hc, hn, rfl⟩ := hp
  exact outside_update cfg disk c n hc hn v

/-- Two disks with the same files of the sink. -/
theorem inside_congr (disk disk' : Disk) (h : ∀ p, Owns cfg p → disk' p = disk p) :
    inside cfg disk' = inside cfg disk := by
  funext p
  unfold inside
  by_cases hp : Owns cfg p
  · rw [if_pos hp, if_pos hp, h p hp]
  · rw [if_neg hp, if_neg hp]

theorem owns_file (c : Chain) (hc : c.Configured cfg) : Owns cfg (c.file cfg) := ⟨c, 0, hc, Nat.zero_le _, rfl⟩

end Part

/-! ## Calls -/

section Calls

variable (cfg : OutputConfig) (retryInterval : ℕ) (serialize : List (Bytes × Option Bytes) → Bytes)
  (plan : Plan)

section Changes

variable (exits : Exit → Prop)

theorem onSink_local (f : LogFile → LogFile)
    (hopen : ∀ s c, (f s).isOpen c = true → s.isOpen c = true ∨ c.Configured cfg) :
    Confined (sinkPart cfg exits) (onSink f) :=
  confined_modify _ _ (fun _ _ => rfl) (fun _ _ => rfl) fun w hw c hc => (hopen w.sink c hc).elim (hw c) id

theorem setFile_local (p : Bytes) (v : Option Bytes) (hp : Owns cfg p) :
    Confined (sinkPart cfg exits) (setFile p v) := by
  refine confined_modify _ _ (fun w _ => ?_) (fun w _ => ?_) fun _ hw => hw
  · change ({ w.inside cfg with disk := Function.update (inside cfg w.disk) p v } : World) =
      { w.inside cfg with disk := inside cfg (Function.update w.disk p v) }
    rw [inside_update cfg w.disk p v hp]
  · change (outside cfg (Function.update w.disk p v), w.running) = (outside cfg w.disk, w.running)
    rw [outside_set cfg w.disk p v hp]

theorem note_local (deed : Deed) (hdeed : deed.inside cfg = deed) :
    Confined (sinkPart cfg exits) (note deed) := by
  refine confined_modify _ _ (fun w _ => ?_) (fun _ _ => rfl) fun _ hw => hw
  change ({ w.inside cfg with trace := w.trace.map (Deed.inside cfg) ++ [deed] } : World) =
    { w.inside cfg with trace := (w.trace ++ [deed]).map (Deed.inside cfg) }
  rw [List.map_append, List.map_singleton, hdeed]

theorem closeFiles_local : Confined (sinkPart cfg exits) closeFiles :=
  onSink_local cfg exits _ fun _ _ h => by cases h

theorem scheduleRetry_local : Confined (sinkPart cfg exits) scheduleRetry := by
  refine onSink_local cfg exits _ fun s c h => .inl ?_
  split at h
  · exact h
  · exact h

end Changes

variable (hlives : plan.Lives)

include hlives in
theorem attempt_local (call : Call) : Confined (raising cfg) (attempt plan call) := by
  unfold attempt
  cases h : plan.outcome call with
  | ok => exact confined_pure _ _
  | fails message => exact confined_pure _ _
  | throws what => exact confined_raise _ _ ⟨what, rfl⟩
  | killed => exact absurd h (hlives call)

include hlives in
theorem reach_local (call : Call) : Confined (raising cfg) (reach plan call) := by
  unfold reach
  cases h : plan.outcome call with
  | ok => exact confined_pure _ _
  | fails message => exact confined_pure _ _
  | throws what => exact confined_raise _ _ ⟨what, rfl⟩
  | killed => exact absurd h (hlives call)

include hlives in
theorem osLog_local (line : Bytes) : Confined (raising cfg) (osLog plan line) :=
  confined_bind _ _ _ (reach_local cfg plan hlives .report) fun _ =>
    confined_modify _ _ (fun _ _ => rfl) (fun _ _ => rfl) fun _ hw => hw

/-! ## Failing -/

include hlives in
theorem failSink_local (reason : Bytes) : Confined (raising cfg) (failSink cfg retryInterval plan reason) := by
  have hclosed : Confined (raising cfg) (onSink fun s => { s with closed := true }) :=
    onSink_local cfg _ _ fun _ _ h => .inl h
  have hreport := osLog_local cfg plan hlives
  have hshut : Confined (raising cfg) (do
      onSink fun s => { s with closed := true }
      closeFiles
      scheduleRetry : M Unit) :=
    confined_bind _ _ _ hclosed fun _ => confined_bind _ _ _ (closeFiles_local cfg _) fun _ =>
      scheduleRetry_local cfg _
  unfold failSink
  refine confined_get_bind _ _ (fun _ _ => rfl) fun w _ => confined_ite _ _ _ _ (fun _ => ?_) fun _ => ?_
  · exact confined_bind _ _ _ (hreport _) fun _ => confined_bind _ _ _ hclosed fun _ => closeFiles_local cfg _
  · refine confined_bind _ _ _ (onSink_local cfg _ _ fun _ _ h => .inl h) fun _ => ?_
    refine confined_ite _ _ _ _ (fun _ => confined_ite _ _ _ _ (fun _ => ?_) fun _ => ?_) fun _ => hshut
    · exact confined_bind _ _ _ (hreport _) fun _ => hshut
    · exact confined_bind _ _ _ (hreport _) fun _ => hshut

include hlives in
theorem failSinkFromHandler_local (what : Bytes) :
    Confined (returning cfg) (failSinkFromHandler cfg retryInterval plan what) := by
  refine confined_handle (raising cfg) (fun _ => False) _ _ (failSink_local cfg retryInterval plan hlives _)
    fun e he => ?_
  obtain ⟨what, rfl⟩ := he
  exact onSink_local cfg _ _ fun _ _ h => .inl h

include hlives in
theorem guarded_local (body : M Unit) (hbody : Confined (raising cfg) body) :
    Confined (returning cfg) (guarded cfg retryInterval plan body) := by
  refine confined_handle (raising cfg) (fun _ => False) _ _ hbody fun e he => ?_
  obtain ⟨what, rfl⟩ := he
  exact failSinkFromHandler_local cfg retryInterval plan hlives what

/-! ## Opening -/

include hlives in
theorem openStream_local (rotating : Bool) (c : Chain) (hc : c.Configured cfg) :
    Confined (raising cfg) (openStream cfg plan rotating c) := by
  have hfile := owns_file cfg c hc
  unfold openStream
  refine confined_get_bind _ _ (fun w _ => ?_) fun w hw => confined_ite _ _ _ _ (fun hopen => ?_) fun _ => ?_
  · dsimp only [raising, sinkPart, World.inside]
    rw [inside_apply cfg w.disk _ hfile]
  · exact confined_bind _ _ _ (onSink_local cfg _ _ fun _ _ h => .inl h) fun _ => confined_pure _ _
  · refine confined_bind _ _ _ (attempt_local cfg plan hlives _) fun message => ?_
    cases message with
    | some message => exact confined_pure _ _
    | none =>
      refine confined_bind _ _ _ (setFile_local cfg _ _ _ hfile) fun _ => ?_
      refine confined_bind _ _ _ (onSink_local cfg _ _ fun s d h => ?_) fun _ => confined_pure _ _
      by_cases hd : d = c
      · exact .inr (hd ▸ hc)
      · exact .inl ((Function.update_of_ne hd true s.isOpen).symm.trans h)

include hlives in
theorem openFile_local (rotating : Bool) (c : Chain) :
    Confined (raising cfg) (openFile cfg retryInterval plan rotating c) := by
  have hfail := failSink_local cfg retryInterval plan hlives
  unfold openFile
  refine confined_ite _ _ _ _ (fun _ => confined_pure _ _) fun hc => ?_
  refine confined_bind _ _ _ (openStream_local cfg plan hlives rotating c hc) fun opened => ?_
  refine confined_ite _ _ _ _ (fun _ => ?_) fun _ => ?_
  · refine confined_bind _ _ _ (attempt_local cfg plan hlives _) fun message => ?_
    cases message with
    | some message => exact confined_bind _ _ _ (hfail _) fun _ => confined_pure _ _
    | none =>
      refine confined_get_bind _ _ (fun w _ => ?_) fun w _ => ?_
      · dsimp only [raising, sinkPart, World.inside]
        rw [inside_apply cfg w.disk _ (owns_file cfg c hc)]
      · exact confined_bind _ _ _ (onSink_local cfg _ _ fun _ _ h => .inl h) fun _ => confined_pure _ _
  · exact confined_bind _ _ _ (hfail _) fun _ => confined_pure _ _

include hlives in
theorem openFiles_local (rotating : Bool) :
    Confined (raising cfg) (openFiles cfg retryInterval plan rotating) := by
  have hfile := openFile_local cfg retryInterval plan hlives rotating
  refine confined_bind _ _ _ (hfile .text) fun opened => confined_ite _ _ _ _ (fun _ => ?_) fun _ =>
    confined_pure _ _
  exact confined_discard _ _ (hfile .jsonl)

/-! ## Rotating -/

include hlives in
theorem probeFile_local (call : Call) (p : Bytes) (hp : Owns cfg p) :
    Confined (raising cfg) (probeFile cfg retryInterval plan call p) := by
  unfold probeFile
  refine confined_bind _ _ _ (attempt_local cfg plan hlives _) fun message => ?_
  cases message with
  | some message =>
    exact confined_bind _ _ _ (failSink_local cfg retryInterval plan hlives _) fun _ => confined_pure _ _
  | none =>
    refine confined_get_bind _ _ (fun w _ => ?_) fun w _ => confined_pure _ _
    dsimp only [raising, sinkPart, World.inside]
    rw [inside_apply cfg w.disk _ hp]

/-- The highest generation it can find is the last one it looks at. -/
theorem findHighest_le (c : Chain) (left n highest : ℕ) (w : World) :
    wp (findHighest cfg retryInterval plan c left n highest) (fun found _ => ∀ h, found = some h →
      h ≤ max highest (n + left - 1))
      (fun _ _ => True) w := by
  induction left generalizing n highest w with
  | zero =>
    intro h heq
    cases heq
    exact Nat.le_max_left _ _
  | succ left ih =>
    unfold findHighest
    rw [wp_bind]
    have hany : wp (probeFile cfg retryInterval plan (.probe c n) (c.path cfg n)) (fun _ _ => True)
        (fun _ _ => True) w := by
      unfold wp
      split
      · trivial
      · trivial
    refine wp_mono _ _ _ _ _ _ hany (fun found w' _ => ?_) fun _ _ h => h
    cases found with
    | none =>
      intro h heq
      cases heq
    | some found =>
      refine wp_mono _ _ _ _ _ _ (ih (n + 1) _ w') (fun r _ hr h heq => ?_) fun _ _ h => h
      have hle := hr h heq
      cases found with
      | true => simp only [if_true] at hle; omega
      | false => simp only [Bool.false_eq_true, if_false] at hle; omega

section Generations

variable (c : Chain) (hc : c.Configured cfg)

include hlives hc in
theorem findHighest_local (left n highest : ℕ) (hleft : n + left ≤ depth cfg + 1) :
    Confined (raising cfg) (findHighest cfg retryInterval plan c left n highest) := by
  induction left generalizing n highest with
  | zero => exact confined_pure _ _
  | succ left ih =>
    unfold findHighest
    refine confined_bind _ _ _ (probeFile_local cfg retryInterval plan hlives _ _ ⟨c, n, hc, by omega, rfl⟩)
      fun found => ?_
    cases found with
    | none => exact confined_pure _ _
    | some found => exact ih (n + 1) _ (by omega)

/-- The disk before a removal is recorded, of which a sink sees its own files. -/
theorem noteRemoved_local (n : ℕ) (p : Bytes) (hp : Owns cfg p) :
    Confined (raising cfg) (Effect.get >>= fun w => note (Deed.removed c n ((w.disk p).getD []) w.disk)) := by
  intro w hw
  refine ⟨Prod.ext rfl ?_, rfl, hw, fun _ h => by cases h⟩
  change ({ w.inside cfg with
      trace := w.trace.map (Deed.inside cfg) ++
      [Deed.removed c n ((inside cfg w.disk p).getD []) (inside cfg w.disk)] } : World) =
    { w.inside cfg with trace := (w.trace ++ [Deed.removed c n ((w.disk p).getD []) w.disk]).map (Deed.inside cfg) }
  rw [List.map_append, List.map_singleton, Deed.inside, inside_apply cfg w.disk p hp]

include hlives hc in
theorem removeOld_local (n : ℕ) (hn : n ≤ depth cfg) :
    Confined (raising cfg) (removeOld cfg retryInterval plan c n) := by
  induction n with
  | zero => exact confined_pure _ _
  | succ n ih =>
    have hpath : Owns cfg (c.path cfg (n + 1)) := ⟨c, n + 1, hc, hn, rfl⟩
    unfold removeOld
    refine confined_ite _ _ _ _ (fun _ => confined_pure _ _) fun _ => ?_
    refine confined_bind _ _ _ (probeFile_local cfg retryInterval plan hlives _ _ hpath) fun found => ?_
    rcases found with _ | _ | _
    · exact confined_pure _ _
    · exact ih (by omega)
    -- the file is there
    · refine confined_bind _ _ _ (attempt_local cfg plan hlives _) fun message => ?_
      cases message with
      | some message =>
        exact confined_bind _ _ _ (failSink_local cfg retryInterval plan hlives _) fun _ => confined_pure _ _
      | none =>
        have hrest := confined_bind _ _ _ (setFile_local cfg _ _ none hpath) fun _ => ih (by omega)
        have hremove := confined_bind _ _ _ (noteRemoved_local cfg c (n + 1) _ hpath) fun _ => hrest
        exact hremove

include hlives hc in
theorem shiftOne_local (n : ℕ) (hn : n + 1 ≤ depth cfg) :
    Confined (raising cfg) (shiftOne cfg retryInterval plan c n) := by
  have hfrom : Owns cfg (c.path cfg n) := ⟨c, n, hc, by omega, rfl⟩
  have hto : Owns cfg (c.path cfg (n + 1)) := ⟨c, n + 1, hc, hn, rfl⟩
  unfold shiftOne
  refine confined_bind _ _ _ (probeFile_local cfg retryInterval plan hlives _ _ hfrom) fun found => ?_
  rcases found with _ | _ | _
  · exact confined_pure _ _
  · exact confined_pure _ _
  -- the file is there
  · refine confined_bind _ _ _ (attempt_local cfg plan hlives _) fun message => ?_
    cases message with
    | some message =>
      exact confined_bind _ _ _ (failSink_local cfg retryInterval plan hlives _) fun _ => confined_pure _ _
    | none =>
      refine confined_get_bind _ _ (fun w _ => ?_) fun w _ => ?_
      · dsimp only [raising, sinkPart, World.inside]
        rw [inside_apply cfg w.disk _ hfrom, inside_apply cfg w.disk _ hto]
      · have hmove : Confined (raising cfg) (do
            setFile (c.path cfg (n + 1)) (w.disk (c.path cfg n))
            setFile (c.path cfg n) none
            return true : M Bool) :=
          confined_bind _ _ _ (setFile_local cfg _ _ _ hto) fun _ =>
            confined_bind _ _ _ (setFile_local cfg _ _ _ hfrom) fun _ =>
            confined_pure _ _
        cases w.disk (c.path cfg (n + 1)) with
        | none => exact hmove
        | some content => exact confined_bind _ _ _ (note_local cfg _ _ rfl) fun _ => hmove

include hlives hc in
theorem shiftDown_local (n : ℕ) (hn : n + 1 ≤ depth cfg) :
    Confined (raising cfg) (shiftDown cfg retryInterval plan c n) := by
  have hone := shiftOne_local cfg retryInterval plan hlives c hc
  have hup : ∀ m, m ≤ n → Confined (raising cfg) (shiftUp cfg retryInterval plan c m) := by
    intro m hm
    induction m with
    | zero => exact confined_pure _ _
    | succ m ih =>
      refine confined_bind _ _ _ (hone (m + 1) (by omega)) fun moved =>
        confined_ite _ _ _ _ (fun _ => ?_) fun _ => confined_pure _ _
      exact ih (by omega)
  refine confined_bind _ _ _ (hup n (Nat.le_refl n)) fun moved =>
    confined_ite _ _ _ _ (fun _ => ?_) fun _ => confined_pure _ _
  exact hone 0 (by omega)

include hlives hc in
theorem shiftFiles_local : Confined (raising cfg) (shiftFiles cfg retryInterval plan c) := by
  have hlimit := probeLimit_le cfg
  unfold shiftFiles
  refine confined_bind_post _ _ _ (fun found => ∀ h, found = some h → h ≤ probeLimit cfg)
    (findHighest_local cfg retryInterval plan hlives c hc _ _ _ (by omega)) (fun w => ?_) fun found hfound => ?_
  · refine wp_mono _ _ _ _ _ _ (findHighest_le cfg retryInterval plan c _ _ _ w) (fun r _ hr h heq =>
      ?_) fun _ _ h => h
    have hle := hr h heq
    omega
  · cases found with
    | none => exact confined_pure _ _
    | some highest =>
      have hle := hfound highest rfl
      have hdown := shiftDown_local cfg retryInterval plan hlives c hc
      refine confined_ite _ _ _ _ (fun hfull => ?_) fun hroom => hdown highest ?_
      · have hdepth := depth_pos cfg hfull.1
        refine confined_bind _ _ _ (removeOld_local cfg retryInterval plan hlives c hc highest (by omega))
          fun removed => ?_
        exact confined_ite _ _ _ _ (fun _ => hdown (cfg.maxFiles - 1) (by omega)) fun _ => confined_pure _ _
      · -- without a limit there is one slot more than it probes
        by_cases hpos : 0 < cfg.maxFiles
        · have hdepth := depth_pos cfg hpos
          omega
        · have hdepth : depth cfg = 1000 + 1 := if_pos (by omega)
          have hthousand : probeLimit cfg = 1000 := if_neg hpos
          omega

end Generations

include hlives in
theorem rotate_local : Confined (raising cfg) (rotate cfg retryInterval plan) := by
  have hchain : ∀ c, Confined (raising cfg) (shiftChain cfg retryInterval plan c) := fun c =>
    confined_ite _ _ _ _ (fun _ => confined_pure _ _) fun hc =>
      shiftFiles_local cfg retryInterval plan hlives c hc
  refine confined_bind _ _ _ (closeFiles_local cfg _) fun _ =>
    confined_bind _ _ _ (hchain .text) fun moved => ?_
  refine confined_ite _ _ _ _ (fun _ => ?_) fun _ => confined_pure _ _
  refine confined_bind _ _ _ (hchain .jsonl) fun moved => confined_ite _ _ _ _ (fun _ => ?_) fun _ =>
    confined_pure _ _
  exact openFiles_local cfg retryInterval plan hlives true

include hlives in
theorem rotateIfNeeded_local : Confined (raising cfg) (rotateIfNeeded cfg retryInterval plan) :=
  confined_get_bind _ _ (fun _ _ => rfl) fun _ _ =>
    confined_ite _ _ _ _ (fun _ => rotate_local cfg retryInterval plan hlives) fun _ => confined_pure _ _

/-! ## Writing -/

include hlives in
theorem writeLine_local (c : Chain) (hc : c.Configured cfg) (line : Bytes) :
    Confined (raising cfg) (writeLine cfg plan c line) := by
  have hfile := owns_file cfg c hc
  unfold writeLine
  refine confined_get_bind _ _ (fun w _ => ?_) fun w _ =>
    confined_ite _ _ _ _ (fun _ => confined_pure _ _) fun _ => ?_
  · dsimp only [raising, sinkPart, World.inside]
    rw [inside_apply cfg w.disk _ hfile]
  · cases h : plan.outcome (.write c) with
    | ok =>
      refine confined_bind _ _ _ (setFile_local cfg _ _ _ hfile) fun _ => ?_
      exact confined_bind _ _ _ (note_local cfg _ _ rfl) fun _ => confined_pure _ _
    | fails message =>
      refine confined_bind _ _ _ (setFile_local cfg _ _ _ hfile) fun _ => ?_
      exact confined_bind _ _ _ (onSink_local cfg _ _ fun _ _ h => .inl h) fun _ => confined_pure _ _
    | throws what =>
      exact confined_bind _ _ _ (setFile_local cfg _ _ _ hfile) fun _ => confined_raise _ _ ⟨what, rfl⟩
    | killed => exact absurd h (hlives _)

include hlives in
theorem writeChain_local (c : Chain) (msg : SyslogMessage) (rcv : Bytes) :
    Confined (raising cfg) (writeChain cfg retryInterval serialize plan c msg rcv) := by
  unfold writeChain
  refine confined_get_bind _ _ (fun _ _ => rfl) fun w hw =>
    confined_ite _ _ _ _ (fun _ => confined_pure _ _) fun hopen => ?_
  have hc : c.Configured cfg := hw c (by simpa using hopen)
  refine confined_bind _ _ _ (reach_local cfg plan hlives _) fun _ => ?_
  refine confined_bind _ _ _ (writeLine_local cfg plan hlives c hc _) fun done =>
    confined_ite _ _ _ _ (fun _ => ?_) fun _ => ?_
  · exact confined_bind _ _ _ (onSink_local cfg _ _ fun _ _ h => .inl h) fun _ => confined_pure _ _
  · exact confined_bind _ _ _ (failSink_local cfg retryInterval plan hlives _) fun _ => confined_pure _ _

include hlives in
theorem doWrite_local (msg : SyslogMessage) (rcv : Bytes) :
    Confined (raising cfg) (doWrite cfg retryInterval serialize plan msg rcv) := by
  have hchain := writeChain_local cfg retryInterval serialize plan hlives
  have hwrite : Confined (raising cfg) (do
      rotateIfNeeded cfg retryInterval plan
      reach plan .timestamp
      if ← writeChain cfg retryInterval serialize plan .text msg rcv then
        discard (writeChain cfg retryInterval serialize plan .jsonl msg rcv) : M Unit) := by
    refine confined_bind _ _ _ (rotateIfNeeded_local cfg retryInterval plan hlives) fun _ => ?_
    refine confined_bind _ _ _ (reach_local cfg plan hlives _) fun _ =>
      confined_bind _ _ _ (hchain .text msg rcv) fun done => ?_
    exact confined_ite _ _ _ _ (fun _ => confined_discard _ _ (hchain .jsonl msg rcv)) fun _ =>
      confined_pure _ _
  unfold doWrite
  refine confined_get_bind _ _ (fun _ _ => rfl) fun w _ =>
    confined_ite _ _ _ _ (fun _ => confined_pure _ _) fun _ => ?_
  refine confined_ite _ _ _ _ (fun _ => ?_) fun _ => hwrite
  exact confined_bind _ _ _ (openFiles_local cfg retryInterval plan hlives false) fun _ => hwrite

include hlives in
theorem attemptReopen_local : Confined (raising cfg) (attemptReopen cfg retryInterval plan) := by
  refine confined_bind _ _ _ (onSink_local cfg _ _ fun _ _ h => .inl h) fun _ => ?_
  refine confined_bind _ _ _ (openFiles_local cfg retryInterval plan hlives false) fun _ => ?_
  refine confined_get_bind _ _ (fun _ _ => rfl) fun w _ => confined_ite _ _ _ _ (fun _ => ?_) fun _ =>
    confined_pure _ _
  exact confined_bind _ _ _ (onSink_local cfg _ _ fun _ _ h => .inl h) fun _ => osLog_local cfg plan hlives _

/-! ## Handlers -/

/-- An event that does not end the process: it is not killed, and its sink can be opened at startup. -/
def Event.Lives : Event → Prop
  | .start _ plan => plan.AllOk
  | .write _ _ plan => plan.Lives
  | .retry plan => plan.Lives
  | .close => True

theorem handler_local (e : Event) (he : e.Lives) (hstart : e.isStart = false) :
    Confined (returning cfg) (handler cfg retryInterval serialize e) := by
  cases e with
  | start openNow plan => cases hstart
  | write msg rcv plan =>
    exact guarded_local cfg retryInterval plan he _ (doWrite_local cfg retryInterval serialize plan he msg rcv)
  | retry plan =>
    refine confined_get_bind _ _ (fun _ _ => rfl) fun w _ => confined_ite _ _ _ _ (fun _ => ?_) fun _ =>
      confined_pure _ _
    refine confined_bind _ _ _ (onSink_local cfg _ _ fun _ _ h => .inl h) fun _ => ?_
    refine confined_ite _ _ _ _ (fun _ => ?_) fun _ => confined_pure _ _
    exact guarded_local cfg retryInterval plan he _ (attemptReopen_local cfg retryInterval plan he)
  | close =>
    exact confined_bind _ _ _ (onSink_local cfg _ _ fun _ _ h => .inl h) fun _ => closeFiles_local cfg _

/-- At startup the process is marked as running, which is not part of a sink. -/
theorem start_local (openNow : Bool) (hlives : plan.Lives) :
    Confined ⟨World.inside cfg, fun w => outside cfg w.disk, fun w => ∀ c, w.sink.isOpen c = true →
      c.Configured cfg,
        fun e => ∃ what, e = .raised what⟩ (handler cfg retryInterval serialize (.start openNow plan)) := by
  have hopen : Confined (raising cfg) (openAtStartup cfg retryInterval plan) := by
    refine confined_bind _ _ _ (onSink_local cfg _ _ fun _ _ h => .inl h) fun _ => ?_
    refine confined_bind _ _ _ (openFiles_local cfg retryInterval plan hlives false) fun _ => ?_
    exact onSink_local cfg _ _ fun _ _ h => .inl h
  refine confined_bind _ _ _ (confined_modify _ _ (fun _ _ => rfl) (fun _ _ => rfl) fun _ _ _ h =>
    by cases h) fun _ => ?_
  refine confined_ite _ _ _ _ (fun _ => ?_) fun _ => confined_pure _ _
  refine confined_bind _ _ _ (confined_coarser _ Prod.fst _ hopen) fun _ => ?_
  exact confined_modify _ _ (fun _ _ => rfl) (fun _ _ => rfl) fun _ h => h

/-- A step of a running process, on the files of the sink and on all others. -/
theorem step_local (hapart : Apart cfg) (e : Event) (he : e.Lives) (w : World) (hrunning : w.running = true)
    (hfits : ∀ c, w.sink.isOpen c = true → c.Configured cfg) :
    step cfg retryInterval serialize (w.inside cfg) e = (step cfg retryInterval serialize w e).inside cfg ∧
      outside cfg (step cfg retryInterval serialize w e).disk = outside cfg w.disk ∧
      (step cfg retryInterval serialize w e).running = true ∧
      ∀ c, (step cfg retryInterval serialize w e).sink.isOpen c = true → c.Configured cfg := by
  have hgo : ∀ v : World, v.running = true → ¬ (v.running = false ∧ e.isStart = false) := by
    rintro v hv ⟨hstopped, -⟩
    rw [hv] at hstopped
    cases hstopped
  unfold step
  rw [if_neg (hgo w hrunning), if_neg (hgo (w.inside cfg) hrunning)]
  by_cases hstart : e.isStart = false
  · obtain ⟨hthrough, hrest, hopen, hexits⟩ := handler_local cfg retryInterval serialize e he hstart w hfits
    change handler cfg retryInterval serialize e (w.inside cfg) = _ at hthrough
    rw [hthrough]
    cases h : handler cfg retryInterval serialize e w with
    | mk r v =>
      rw [h] at hrest hopen hexits
      cases r with
      | ok _ => exact ⟨rfl, congrArg Prod.fst hrest, (congrArg Prod.snd hrest).trans hrunning, hopen⟩
      | error exit => exact (hexits exit rfl).elim
  · cases e with
    | start openNow plan =>
      have hok : plan.AllOk := he
      obtain ⟨hthrough, hrest, hopen, -⟩ :=
        start_local cfg retryInterval serialize plan openNow hok.lives w hfits
      obtain ⟨_, v, hv, -, -, hlive⟩ :=
        wp_returns _ _ _ _ (start_spec cfg retryInterval serialize hapart plan openNow w)
        fun _ _ h => h.2 hok
      change handler cfg retryInterval serialize (.start openNow plan) (w.inside cfg) = _ at hthrough
      rw [hthrough, hv]
      rw [hv] at hrest hopen
      exact ⟨rfl, hrest, (hlive hok).1, hopen⟩
    | write msg rcv plan => exact absurd rfl hstart
    | retry plan => exact absurd rfl hstart
    | close => exact absurd rfl hstart

end Calls

end Minilog.Output
