import Minilog.Output.Rotation
import Mathlib.Data.Set.Card

/-! One rotation of a chain with gaps.

`files` are all the generations of a chain, also those above `max_files`, which a sink does not count as its
own. Without errors `shiftFiles` renumbers them whatever is there (`shiftFiles_shifted`): the descending order
of the renames is the order of `Slots.moves`. As the probe ends at `max_files`, no generation above it is
looked at. -/
namespace Minilog.Output
open Lib Lib.Effect
open Minilog.Parser Minilog.Server
set_option autoImplicit false

def files (cfg : OutputConfig) (disk : Disk) (c : Chain) : Slots Bytes := fun n => disk (c.path cfg n)

section Chain

variable (cfg : OutputConfig) (c : Chain)

theorem files_update (disk : Disk) (n : ℕ) (v : Option Bytes) :
    files cfg (Function.update disk (c.path cfg n) v) c = (files cfg disk c).set n v := by
  funext m
  by_cases hm : m = n
  · rw [hm, Slots.set_same]
    exact Function.update_self ..
  · rw [Slots.set_other _ _ _ _ hm]
    exact Function.update_of_ne (fun h => hm (slotPath_injective _ _ _ h)) ..

/-- Only files of the chain have changed, and only their places. -/
structure Placed (s : Slots Bytes) (w w' : World) : Prop where
  files : files cfg w'.disk c = s
  other : ∀ p, (∀ n, p ≠ c.path cfg n) → w'.disk p = w.disk p
  trace : w'.trace = w.trace
  sink : w'.sink = w.sink

theorem Placed.refl (w : World) : Placed cfg c (Output.files cfg w.disk c) w w :=
  ⟨rfl, fun _ _ => rfl, rfl, rfl⟩

variable {cfg c}

theorem Placed.trans {s s' : Slots Bytes} {w w' w'' : World} (h : Placed cfg c s w w')
    (h' : Placed cfg c s' w' w'') :
    Placed cfg c s' w w'' :=
  ⟨h'.files, fun p hp => (h'.other p hp).trans (h.other p hp), h'.trace.trans h.trace, h'.sink.trans h.sink⟩

end Chain

/-! ## The loops without errors -/

section Fine

variable (cfg : OutputConfig) (retryInterval : ℕ) (plan : Plan) (hok : plan.AllOk) (c : Chain)

include hok in
theorem probeFile_fine (call : Call) (path : Bytes) (w : World) (Q : Option Bool → World → Prop)
    (h : Q (some (w.disk path).isSome) w) :
    wp (probeFile cfg retryInterval plan call path) Q (fun _ _ => False) w := by
  apply probeFile_rule
  · exact fun _ => h
  · exact fun hbad => absurd (hok call) hbad
  · exact fun hbad => absurd (hok call) hbad

include hok in
/-- A rename to a path where nothing is. -/
theorem shiftOne_fine (n : ℕ) (w : World) (hfree : files cfg w.disk c (n + 1) = none) :
    wp (shiftOne cfg retryInterval plan c n) (fun ok w' => ok = true ∧
      Placed cfg c ((files cfg w.disk c).move n) w w')
      (fun _ _ => False) w := by
  unfold shiftOne
  rw [wp_bind]
  apply probeFile_fine cfg retryInterval plan hok
  cases hf : w.disk (c.path cfg n) with
  | none =>
    have hmove : (files cfg w.disk c).move n = files cfg w.disk c := if_pos hf
    rw [hmove]
    exact ⟨rfl, Placed.refl cfg c w⟩
  | some content =>
    have hnext : w.disk (c.path cfg (n + 1)) = none := hfree
    have hmove : (files cfg w.disk c).move n =
        ((files cfg w.disk c).set (n + 1) (some content)).set n none := by
      unfold Slots.move
      rw [if_neg (by rw [files, hf]; exact Option.some_ne_none _), files, hf]
    simp only [Option.isSome_some, wp_bind]
    apply attempt_rule
    · intro _
      simp only [wp_bind, wp_get, hnext, wp_pure, setFile, wp_modify]
      refine ⟨trivial, ?_, fun p hp => ?_, rfl, rfl⟩
      · dsimp only
        rw [files_update, files_update, hmove, hf]
      · dsimp only
        rw [Function.update_of_ne (hp n), Function.update_of_ne (hp (n + 1))]
    · exact fun hbad => absurd (hok _) hbad
    · exact fun hbad => absurd (hok _) hbad

include hok in
theorem shiftUp_fine (n : ℕ) (w : World) (hfree : files cfg w.disk c (n + 1) = none) :
    wp (shiftUp cfg retryInterval plan c n) (fun ok w' => ok = true ∧
      Placed cfg c ((files cfg w.disk c).moves n n) w w')
      (fun _ _ => False) w := by
  induction n generalizing w with
  | zero => exact ⟨rfl, Placed.refl cfg c w⟩
  | succ n ih =>
    unfold shiftUp
    rw [wp_bind]
    refine wp_mono _ _ _ _ _ _ (shiftOne_fine cfg retryInterval plan hok c (n + 1) w hfree) ?_ (fun _ _ h => h)
    rintro ok u ⟨rfl, hu⟩
    -- the slot that has just been left takes the next file
    have hleft : files cfg u.disk c (n + 1) = none := by
      rw [hu.files, Slots.move_apply _ _ _ hfree, if_pos rfl]
    refine wp_mono _ _ _ _ _ _ (ih u hleft) ?_ (fun _ _ h => h)
    rintro ok v ⟨rfl, hv⟩
    have hmoves := Slots.moves_succ (files cfg w.disk c) n n
    rw [← hu.files] at hmoves
    exact ⟨rfl, hmoves ▸ hu.trans hv⟩

include hok in
theorem shiftDown_placed (n : ℕ) (w : World) (hfree : files cfg w.disk c (n + 1) = none) :
    wp (shiftDown cfg retryInterval plan c n) (fun ok w' => ok = true ∧
      Placed cfg c ((files cfg w.disk c).moves n (n + 1)) w w')
      (fun _ _ => False) w := by
  unfold shiftDown
  rw [wp_bind]
  refine wp_mono _ _ _ _ _ _ (shiftUp_fine cfg retryInterval plan hok c n w hfree) ?_ (fun _ _ h => h)
  rintro ok u ⟨rfl, hu⟩
  have hleft : files cfg u.disk c 1 = none := by
    rw [hu.files, Slots.moves_apply _ _ _ _ hfree (by omega), if_neg (by omega), if_pos (by omega)]
  refine wp_mono _ _ _ _ _ _ (shiftOne_fine cfg retryInterval plan hok c 0 u hleft) ?_ (fun _ _ h => h)
  rintro ok v ⟨rfl, hv⟩
  have hlast : (files cfg u.disk c).move 0 = (files cfg w.disk c).moves n (n + 1) := by
    rw [hu.files, Slots.moves, Nat.sub_self]
  exact ⟨rfl, hlast ▸ hu.trans hv⟩

/-- The chain after a rotation: `active` stands in the place of the active file. -/
structure Shifted (active : Option Bytes) (w w' : World) : Prop where
  active : w'.disk (c.path cfg 0) = active
  raised : ∀ n, 1 ≤ n → n ≤ cfg.maxFiles → w'.disk (c.path cfg n) = w.disk (c.path cfg (n - 1))
  above : ∀ n, cfg.maxFiles < n → w'.disk (c.path cfg n) = w.disk (c.path cfg n)
  other : ∀ p, (∀ n, p ≠ c.path cfg n) → w'.disk p = w.disk p
  trace : w'.trace = w.trace ++
    (w.disk (c.path cfg cfg.maxFiles)).toList.map fun content => .removed c cfg.maxFiles content w.disk

include hok in
theorem removeOld_fine (hpos : 0 < cfg.maxFiles) (w : World) (content : Bytes)
    (hused : w.disk (c.path cfg cfg.maxFiles) = some content) :
    wp (removeOld cfg retryInterval plan c cfg.maxFiles)
      (fun ok w' => ok = true ∧ w' = { w with
        disk := Function.update w.disk (c.path cfg cfg.maxFiles) none
        trace := w.trace ++ [.removed c cfg.maxFiles content w.disk] }) (fun _ _ => False) w := by
  obtain ⟨m, hm⟩ : ∃ m, cfg.maxFiles = m + 1 := ⟨cfg.maxFiles - 1, by omega⟩
  have hstop : ∀ (u : World) (Q : Bool → World → Prop) (E : Exit → World → Prop),
      wp (removeOld cfg retryInterval plan c m) Q E u = Q true u := by
    intro u Q E
    cases m with
    | zero => rfl
    | succ k =>
      unfold removeOld
      rw [if_pos (by omega), wp_pure]
  rw [hm] at hused ⊢
  unfold removeOld
  rw [if_neg (by omega), wp_bind]
  apply probeFile_fine cfg retryInterval plan hok
  rw [hused]
  simp only [Option.isSome_some, wp_bind]
  apply attempt_rule
  · intro _
    simp only [wp_bind, wp_get, note, setFile, wp_modify]
    rw [hstop, hused]
    exact ⟨rfl, rfl⟩
  · exact fun hbad => absurd (hok _) hbad
  · exact fun hbad => absurd (hok _) hbad

include hok in
/-- Whatever generations there are. -/
theorem shiftFiles_shifted (hpos : 0 < cfg.maxFiles) (hc : c.Configured cfg) (w : World) :
    wp (shiftFiles cfg retryInterval plan c) (fun ok w' => ok = true ∧ Shifted cfg c none w w' ∧
      w'.sink = w.sink)
      (fun _ _ => False) w := by
  have hdepth := depth_pos cfg hpos
  have hlimit := probeLimit_pos cfg hpos
  unfold shiftFiles
  rw [wp_bind]
  refine findHighest_rule cfg retryInterval plan c hc _ 1 0 (by omega) (by omega) w (.inl rfl)
    (fun m hm hm' => by omega) _ _ ?_ (fun hbad => absurd hok hbad) (fun hbad => absurd hok hbad)
  intro h hh
  rw [Nat.add_sub_cancel_left, hlimit] at hh
  have hvac : ∀ m, h < m → m ≤ cfg.maxFiles → w.disk (c.path cfg m) = none := by
    intro m hm hm'
    rw [← slots_apply cfg w.disk c m hc (by omega)]
    exact hh.2.2 m hm hm'
  by_cases hfull : 0 < cfg.maxFiles ∧ cfg.maxFiles ≤ h
  · have hlast : h = cfg.maxFiles := Nat.le_antisymm hh.1 hfull.2
    have hslot := hh.2.1.resolve_left (by omega)
    rw [hlast, slots_apply cfg w.disk c _ hc (by omega)] at hslot
    obtain ⟨content, hcontent⟩ := Option.ne_none_iff_exists'.mp hslot
    simp only [if_pos hfull, wp_bind]
    rw [hlast]
    refine wp_mono _ _ _ _ _ _ (removeOld_fine cfg retryInterval plan hok c hpos w content hcontent) ?_
      (fun _ _ h => h)
    rintro ok u ⟨rfl, hu⟩
    have hfiles : files cfg u.disk c = (files cfg w.disk c).set cfg.maxFiles none := by
      rw [hu]
      exact files_update cfg c w.disk cfg.maxFiles none
    have hsucc : cfg.maxFiles - 1 + 1 = cfg.maxFiles := by omega
    have hfree : files cfg u.disk c (cfg.maxFiles - 1 + 1) = none := by rw [hsucc, hfiles, Slots.set_same]
    refine wp_mono _ _ _ _ _ _ (shiftDown_placed cfg retryInterval plan hok c _ u hfree) ?_ (fun _ _ h => h)
    rintro ok v ⟨rfl, hv⟩
    have hplace : ∀ n, v.disk (c.path cfg n) = (files cfg u.disk c).moves (cfg.maxFiles - 1)
        (cfg.maxFiles - 1 + 1) n :=
      fun n => congrFun hv.files n
    have hkept : ∀ n, n ≠ cfg.maxFiles → files cfg u.disk c n = w.disk (c.path cfg n) := fun n hn => by
      rw [hfiles, Slots.set_other _ _ _ _ hn, files]
    refine ⟨rfl, ⟨?_, fun n hn hn' => ?_, fun n hn => ?_, fun p hp => ?_, ?_⟩, ?_⟩
    · rw [hplace, Slots.moves_apply _ _ _ _ hfree (by omega), if_neg (by omega), if_pos (by omega)]
    · rw [hplace, Slots.moves_apply _ _ _ _ hfree (by omega), if_neg (by omega), if_neg (by omega),
        if_pos (by omega), hkept _ (by omega)]
    · rw [hplace, Slots.moves_apply _ _ _ _ hfree (by omega), if_neg (by omega), if_neg (by omega),
        if_neg (by omega), hkept _ (by omega)]
    · rw [hv.other p hp, hu]
      exact Function.update_of_ne (hp cfg.maxFiles) ..
    · rw [hv.trace, hu, hcontent]
      rfl
    · rw [hv.sink, hu]
  · simp only [if_neg hfull]
    have hlt : h < cfg.maxFiles := by omega
    have hfree : files cfg w.disk c (h + 1) = none := hvac (h + 1) (by omega) (by omega)
    refine wp_mono _ _ _ _ _ _ (shiftDown_placed cfg retryInterval plan hok c h w hfree) ?_ (fun _ _ h => h)
    rintro ok v ⟨rfl, hv⟩
    have hplace : ∀ n, v.disk (c.path cfg n) = (files cfg w.disk c).moves h (h + 1) n :=
      fun n => congrFun hv.files n
    refine ⟨rfl, ⟨?_, fun n hn hn' => ?_, fun n hn => ?_, hv.other, ?_⟩, hv.sink⟩
    · rw [hplace, Slots.moves_apply _ _ _ _ hfree (by omega), if_neg (by omega), if_pos (by omega)]
    · rw [hplace, Slots.moves_apply _ _ _ _ hfree (by omega), if_neg (by omega), if_neg (by omega)]
      by_cases hmoved : n ≤ h + 1
      · rw [if_pos hmoved]
        rfl
      · -- above the highest generation both are free
        rw [if_neg hmoved, files, hvac n (by omega) hn', hvac (n - 1) (by omega) (by omega)]
    · rw [hplace, Slots.moves_apply _ _ _ _ hfree (by omega), if_neg (by omega), if_neg (by omega),
        if_neg (by omega)]
      rfl
    · rw [hv.trace, hvac cfg.maxFiles hlt (Nat.le_refl _)]
      exact (List.append_nil _).symm

/-! ## Opening afterwards -/

include hok in
theorem openFile_fine (hc : c.Configured cfg) (w : World) (hclosed : w.sink.isOpen c = false) :
    wp (openFile cfg retryInterval plan true c)
      (fun ok w' => ok = true ∧ w'.disk = Function.update w.disk (c.file cfg)
        (some ((w.disk (c.file cfg)).getD [])) ∧
          w'.trace = w.trace ∧ ∀ d, d ≠ c → w'.sink.isOpen d = w.sink.isOpen d) (fun _ _ => False) w := by
  unfold openFile
  rw [if_neg hc, wp_bind]
  unfold openStream
  simp only [wp_bind, wp_get, hclosed, Bool.false_eq_true, if_false]
  apply attempt_rule
  · intro _
    simp only [setFile, onSink, wp_bind, wp_modify, wp_pure, if_pos]
    apply attempt_rule
    · intro _
      simp only [wp_bind, wp_get, wp_modify, wp_pure]
      exact ⟨trivial, trivial, trivial, fun d hd => Function.update_of_ne hd ..⟩
    · exact fun hbad => absurd (hok _) hbad
    · exact fun hbad => absurd (hok _) hbad
  · exact fun hbad => absurd (hok _) hbad
  · exact fun hbad => absurd (hok _) hbad

/-- The part of `rotate` that is about one chain. -/
def rotateChain : M Bool := do
  closeFiles
  if ← shiftChain cfg retryInterval plan c then openFile cfg retryInterval plan true c else return false

theorem Shifted.opened {w w' w'' : World} (h : Shifted cfg c none w w')
    (hdisk : w''.disk = Function.update w'.disk (c.file cfg) (some ((w'.disk (c.file cfg)).getD [])))
    (htrace : w''.trace = w'.trace) :
    Shifted cfg c (some []) w w'' := by
  have hempty : (w'.disk (c.file cfg)).getD [] = [] := by
    have hnone : w'.disk (c.file cfg) = none := h.active
    rw [hnone]
    rfl
  have hother : ∀ p, p ≠ c.path cfg 0 → w''.disk p = w'.disk p := fun p hp => by
    rw [hdisk]
    exact Function.update_of_ne hp ..
  have hlater : ∀ n, n ≠ 0 → w''.disk (c.path cfg n) = w'.disk (c.path cfg n) := fun n hn =>
    hother _ fun h => hn (slotPath_injective _ _ _ h)
  refine ⟨?_, fun n hn hn' => ?_, fun n hn => ?_, fun p hp => ?_, htrace.trans h.trace⟩
  · rw [hdisk, hempty]
    exact Function.update_self ..
  · rw [hlater n (by omega), h.raised n hn hn']
  · rw [hlater n (by omega), h.above n hn]
  · rw [hother p (hp 0), h.other p hp]

include hok in
theorem rotateChain_shifted (hpos : 0 < cfg.maxFiles) (hc : c.Configured cfg) (w : World) :
    wp (rotateChain cfg retryInterval plan c) (fun ok w' => ok = true ∧ Shifted cfg c (some []) w w')
    (fun _ _ => False) w := by
  unfold rotateChain closeFiles onSink shiftChain
  rw [wp_bind, wp_modify, wp_bind, if_neg hc]
  refine wp_mono _ _ _ _ _ _ (shiftFiles_shifted cfg retryInterval plan hok c hpos hc _) ?_ (fun _ _ h => h)
  rintro ok u ⟨rfl, hu, hsink⟩
  rw [if_pos rfl]
  refine wp_mono _ _ _ _ _ _ (openFile_fine cfg retryInterval plan hok c hc u (by rw [hsink])) ?_
    (fun _ _ h => h)
  rintro ok v ⟨rfl, hdisk, htrace, -⟩
  exact ⟨rfl, Shifted.opened cfg c ⟨hu.active, hu.raised, hu.above, hu.other, hu.trace⟩ hdisk htrace⟩

/-! ## Both chains -/

/-- A chain without a file is left alone. -/
structure Stepped (w w' : World) : Prop where
  shifted : c.Configured cfg → Shifted cfg c none w w'
  absent : ¬ c.Configured cfg → w'.disk = w.disk
  sink : w'.sink = w.sink

include hok in
theorem shiftChain_stepped (hpos : 0 < cfg.maxFiles) (w : World) :
    wp (shiftChain cfg retryInterval plan c) (fun ok w' => ok = true ∧ Stepped cfg c w w')
    (fun _ _ => False) w := by
  unfold shiftChain
  by_cases hc : c.file cfg = []
  · rw [if_pos hc]
    exact ⟨rfl, fun h => absurd hc h, fun _ => rfl, rfl⟩
  · rw [if_neg hc]
    refine wp_mono _ _ _ _ _ _ (shiftFiles_shifted cfg retryInterval plan hok c hpos hc w) ?_ (fun _ _ h => h)
    rintro ok w' ⟨rfl, hs, hsink⟩
    exact ⟨rfl, fun _ => hs, fun h => absurd hc h, hsink⟩

variable {cfg c}

/-- A path that is none of the first `max_files` generations stays as it is. -/
theorem Shifted.elsewhere {active : Option Bytes} {w w' : World} (h : Shifted cfg c active w w') (p : Bytes)
    (hp : ∀ n, n ≤ cfg.maxFiles → p ≠ c.path cfg n) : w'.disk p = w.disk p := by
  by_cases hmem : ∃ n, p = c.path cfg n
  · obtain ⟨n, rfl⟩ := hmem
    exact h.above n (Nat.lt_of_not_le fun hle => hp n hle rfl)
  · exact h.other p fun n hn => hmem ⟨n, hn⟩

theorem Stepped.unowned {w w' : World} (h : Stepped cfg c w w') (hpos : 0 < cfg.maxFiles) (p : Bytes)
    (hp : ¬ Owns cfg p) :
    w'.disk p = w.disk p := by
  have hdepth := depth_pos cfg hpos
  by_cases hc : c.Configured cfg
  · exact (h.shifted hc).elsewhere p fun n hn heq => hp ⟨c, n, hc, by omega, heq⟩
  · rw [h.absent hc]

theorem Stepped.beside {d : Chain} {w w' : World} (h : Stepped cfg c w w') (hapart : Apart cfg)
    (hpos : 0 < cfg.maxFiles) (hne : d ≠ c) (hd : d.Configured cfg) (n : ℕ) (hn : n ≤ cfg.maxFiles) :
    w'.disk (d.path cfg n) = w.disk (d.path cfg n) := by
  have hdepth := depth_pos cfg hpos
  by_cases hc : c.Configured cfg
  · refine (h.shifted hc).elsewhere _ fun m hm heq => ?_
    exact hne (path_injective cfg hapart d c hd hc n m (by omega) (by omega) heq).1
  · rw [h.absent hc]

variable (cfg)

/-- `openFile` for a chain whose stream is closed. -/
structure Reopened (c : Chain) (w w' : World) : Prop where
  configured : c.Configured cfg → w'.disk = Function.update w.disk (c.file cfg)
    (some ((w.disk (c.file cfg)).getD []))
  absent : ¬ c.Configured cfg → w'.disk = w.disk
  streams : ∀ d, d ≠ c → w'.sink.isOpen d = w.sink.isOpen d

include hok in
theorem openFile_renews (c : Chain) (w : World) (hclosed : w.sink.isOpen c = false) :
    wp (openFile cfg retryInterval plan true c) (fun ok w' => ok = true ∧ Reopened cfg c w w')
    (fun _ _ => False) w := by
  by_cases hc : c.file cfg = []
  · unfold openFile
    rw [if_pos hc]
    exact ⟨rfl, fun h => absurd hc h, fun _ => rfl, fun _ _ => rfl⟩
  · refine wp_mono _ _ _ _ _ _ (openFile_fine cfg retryInterval plan hok c hc w hclosed) ?_ (fun _ _ h => h)
    rintro ok v ⟨rfl, hdisk, -, hother⟩
    exact ⟨rfl, fun _ => hdisk, fun h => absurd hc h, hother⟩

variable {cfg}

theorem Reopened.active {c : Chain} {w w' : World} (h : Reopened cfg c w w') (hc : c.Configured cfg)
    (hnone : w.disk (c.path cfg 0) = none) : w'.disk (c.file cfg) = some [] := by
  have hfile : w.disk (c.file cfg) = none := hnone
  rw [h.configured hc, hfile]
  exact Function.update_self ..

theorem Reopened.unowned {c : Chain} {w w' : World} (h : Reopened cfg c w w') (p : Bytes) (hp : ¬ Owns cfg p) :
    w'.disk p = w.disk p := by
  by_cases hc : c.Configured cfg
  · rw [h.configured hc]
    exact Function.update_of_ne (fun heq => hp ⟨c, 0, hc, Nat.zero_le _, heq⟩) ..
  · rw [h.absent hc]

theorem Reopened.beside {c d : Chain} {w w' : World} (h : Reopened cfg c w w') (hapart : Apart cfg)
    (hd : d.Configured cfg) (n : ℕ) (hn : n ≤ depth cfg) (hne : d ≠ c ∨ n ≠ 0) :
    w'.disk (d.path cfg n) = w.disk (d.path cfg n) := by
  by_cases hc : c.Configured cfg
  · rw [h.configured hc]
    refine Function.update_of_ne (fun heq => ?_) ..
    obtain ⟨hdc, hzero⟩ := path_injective cfg hapart d c hd hc n 0 hn (Nat.zero_le _) heq
    exact hne.elim (fun h => h hdc) fun h => h hzero
  · rw [h.absent hc]

variable (cfg)

/-- The chain is renumbered as far as its own generations go, and has a new active file. -/
def Renewed (c : Chain) (w w' : World) : Prop :=
  w'.disk (c.file cfg) = some [] ∧ ∀ n, 1 ≤ n → n ≤ cfg.maxFiles →
    w'.disk (c.path cfg n) = w.disk (c.path cfg (n - 1))

include hok in
theorem rotate_renewed (hapart : Apart cfg) (hpos : 0 < cfg.maxFiles) (w : World) :
    wp (rotate cfg retryInterval plan)
      (fun _ w' => (∀ d, d.Configured cfg → Renewed cfg d w w') ∧ ∀ p, ¬ Owns cfg p → w'.disk p = w.disk p)
      (fun _ _ => False) w := by
  have hdepth := depth_pos cfg hpos
  unfold rotate closeFiles onSink
  rw [wp_bind, wp_modify, wp_bind]
  refine wp_mono _ _ _ _ _ _ (shiftChain_stepped cfg retryInterval plan hok .text hpos _) ?_ (fun _ _ h => h)
  rintro ok w₁ ⟨rfl, h₁⟩
  rw [if_pos rfl, wp_bind]
  refine wp_mono _ _ _ _ _ _ (shiftChain_stepped cfg retryInterval plan hok .jsonl hpos w₁) ?_ (fun _ _ h => h)
  rintro ok w₂ ⟨rfl, h₂⟩
  rw [if_pos rfl]
  -- the shift of both chains
  have hshifted : ∀ d : Chain, d.Configured cfg → w₂.disk (d.path cfg 0) = none ∧
      ∀ n, 1 ≤ n → n ≤ cfg.maxFiles → w₂.disk (d.path cfg n) = w.disk (d.path cfg (n - 1)) := by
    intro d hd
    cases d with
    | text =>
      have hkept := h₂.beside hapart hpos (show Chain.text ≠ .jsonl by decide) hd
      exact ⟨(hkept 0 (Nat.zero_le _)).trans (h₁.shifted hd).active,
        fun n hn hn' => (hkept n hn').trans ((h₁.shifted hd).raised n hn hn')⟩
    | jsonl =>
      have hkept := h₁.beside hapart hpos (show Chain.jsonl ≠ .text by decide) hd
      exact ⟨(h₂.shifted hd).active, fun n hn hn' => ((h₂.shifted hd).raised n hn hn').trans
        (hkept (n - 1) (by omega))⟩
  have hclosed : ∀ d, w₂.sink.isOpen d = false := fun d => by rw [h₂.sink, h₁.sink]
  unfold openFiles
  rw [wp_bind]
  refine wp_mono _ _ _ _ _ _ (openFile_renews cfg retryInterval plan hok .text w₂ (hclosed .text)) ?_
    (fun _ _ h => h)
  rintro ok w₃ ⟨rfl, h₃⟩
  simp only [if_pos, discard, Functor.discard]
  change wp (openFile cfg retryInterval plan true .jsonl >>= fun _ => pure ()) _ _ w₃
  rw [wp_bind]
  refine wp_mono _ _ _ _ _ _ (openFile_renews cfg retryInterval plan hok .jsonl w₃
    (by rw [h₃.streams .jsonl (by decide), hclosed])) ?_ (fun _ _ h => h)
  rintro ok w' ⟨rfl, h'⟩
  refine ⟨fun d hd => ?_, fun p hp => ?_⟩
  swap
  · rw [h'.unowned p hp, h₃.unowned p hp, h₂.unowned hpos p hp, h₁.unowned hpos p hp]
  obtain ⟨hnone, hraised⟩ := hshifted d hd
  refine ⟨?_, fun n hn hn' => ?_⟩
  · cases d with
    | text =>
      rw [← h₃.active hd hnone]
      exact h'.beside hapart hd 0 (Nat.zero_le _) (.inl (by decide))
    | jsonl => exact h'.active hd ((h₃.beside hapart hd 0 (Nat.zero_le _) (.inl (by decide))).trans hnone)
  · rw [h'.beside hapart hd n (by omega) (.inr (by omega)),
      h₃.beside hapart hd n (by omega) (.inr (by omega)), hraised n hn hn']

end Fine

/-! ## What a rotation does to the generations -/

section Rotation

variable (cfg : OutputConfig) (retryInterval : ℕ) (plan : Plan) (hok : plan.AllOk) (c : Chain)
  (hc : c.Configured cfg)
variable (hpos : 0 < cfg.maxFiles) (w : World)

include hok hc hpos in
/-- An error-free rotation, whatever generations there are: the shift of the chain, the same with its active
file opened again, and both chains of a sink whose files are apart. -/
theorem rotation_shifts :
    (∃ w', shiftFiles cfg retryInterval plan c w = (.ok true, w') ∧ Shifted cfg c none w w') ∧
      (∃ w', rotateChain cfg retryInterval plan c w = (.ok true, w') ∧ Shifted cfg c (some []) w w') ∧
      (Apart cfg → ∃ w', rotate cfg retryInterval plan w = (.ok (), w') ∧
        (∀ d, d.Configured cfg → Renewed cfg d w w') ∧
          ∀ p, ¬ Owns cfg p → w'.disk p = w.disk p) := by
  refine ⟨?_, ?_, fun hapart => ?_⟩
  · obtain ⟨ok, w', hrun, rfl, hs, -⟩ :=
      wp_returns _ _ _ _ (shiftFiles_shifted cfg retryInterval plan hok c hpos hc w) fun _ _ h => h
    exact ⟨w', hrun, hs⟩
  · obtain ⟨ok, w', hrun, rfl, hs⟩ :=
      wp_returns _ _ _ _ (rotateChain_shifted cfg retryInterval plan hok c hpos hc w) fun _ _ h => h
    exact ⟨w', hrun, hs⟩
  · obtain ⟨⟨⟩, w', hrun, hs⟩ :=
      wp_returns _ _ _ _ (rotate_renewed cfg retryInterval plan hok hapart hpos w) fun _ _ h => h
    exact ⟨w', hrun, hs⟩

end Rotation

/-- A text file and generations above `max_files` and below it, with a gap between them. -/
def gapped : World where
  disk p := if p = Chain.path pair .text 0 then some (ascii "new") else if p = Chain.path pair .text 2
    then some (ascii "old")
    else if p = Chain.path pair .text 5 then some (ascii "oldest") else none

theorem gapped_files : gapped.disk (Chain.path pair .text 0) = some (ascii "new") ∧
    gapped.disk (Chain.path pair .text 1) = none ∧
    gapped.disk (Chain.path pair .text 5) = some (ascii "oldest") := by
  have hpath : ∀ n m, n ≠ m → Chain.path pair .text n ≠ Chain.path pair .text m :=
    fun n m hne h => hne (slotPath_injective _ _ _ h)
  refine ⟨?_, ?_, ?_⟩
  · rw [gapped]
    dsimp only
    rw [if_pos rfl]
  · rw [gapped]
    dsimp only
    rw [if_neg (hpath 1 0 (by decide)), if_neg (hpath 1 2 (by decide)), if_neg (hpath 1 5 (by decide))]
  · rw [gapped]
    dsimp only
    rw [if_neg (hpath 5 0 (by decide)), if_neg (hpath 5 2 (by decide)), if_pos rfl]

theorem rotation_shifts_gapped : ∃ w', rotateChain pair SinkRecovery.kRetryInterval .fine .text gapped =
    (.ok true, w') ∧
    w'.disk (Chain.path pair .text 0) = some [] ∧ w'.disk (Chain.path pair .text 1) = some (ascii "new") ∧
    w'.disk (Chain.path pair .text 2) = none ∧ w'.disk (Chain.path pair .text 5) = some (ascii "oldest") := by
  obtain ⟨-, ⟨w', hrun, hs⟩, -⟩ := rotation_shifts pair SinkRecovery.kRetryInterval .fine
    (fun _ => rfl) .text (by decide) (by decide) gapped
  obtain ⟨hactive, hfree, hhigh⟩ := gapped_files
  exact ⟨w', hrun, hs.active, (hs.raised 1 (by decide) (by decide)).trans hactive,
    (hs.raised 2 (by decide) (by decide)).trans hfree, (hs.above 5 (by decide)).trans hhigh⟩

/-! ## Generations above `max_files` -/

/-- No more generations than `max_files`, and none with a higher number. -/
structure Bounded (cfg : OutputConfig) (c : Chain) (w : World) : Prop where
  none : ∀ n, cfg.maxFiles < n → w.disk (c.path cfg n) = none
  few : {n | 1 ≤ n ∧ w.disk (c.path cfg n) ≠ Option.none}.encard ≤ cfg.maxFiles

theorem bounded_iff_none (cfg : OutputConfig) (c : Chain) (w : World) :
    Bounded cfg c w ↔ ∀ n, cfg.maxFiles < n → w.disk (c.path cfg n) = none := by
  refine ⟨fun h => h.none, fun h => ⟨h, ?_⟩⟩
  have hsub : {n | 1 ≤ n ∧ w.disk (c.path cfg n) ≠ none} ⊆ (Finset.Icc 1 cfg.maxFiles : Set ℕ) := by
    rintro n ⟨hn, hused⟩
    rw [Finset.coe_Icc]
    exact ⟨hn, Nat.le_of_not_lt fun hlt => hused (h n hlt)⟩
  refine (Set.encard_le_encard hsub).trans ?_
  rw [Set.encard_coe_eq_coe_finsetCard, Nat.card_Icc, Nat.add_sub_cancel]

section Lowered

variable (cfg : OutputConfig) (retryInterval : ℕ) (plan : Plan) (hok : plan.AllOk) (c : Chain)
  (hc : c.Configured cfg)
variable (hpos : 0 < cfg.maxFiles) (w : World)

include hok hc hpos in
/-- A rotation leaves a generation above `max_files` exactly if there was one. -/
theorem rotation_bounded_iff :
    (∃ w', rotateChain cfg retryInterval plan c w = (.ok true, w') ∧
      (Bounded cfg c w' ↔ ∀ n, cfg.maxFiles < n → w.disk (c.path cfg n) = none)) ∧
    (Apart cfg → (∀ n, cfg.maxFiles < n → ¬ Owns cfg (c.path cfg n)) → ∃ w',
      rotate cfg retryInterval plan w = (.ok (), w') ∧
        (Bounded cfg c w' ↔ ∀ n, cfg.maxFiles < n → w.disk (c.path cfg n) = none)) := by
  refine ⟨?_, fun hapart hunowned => ?_⟩
  · obtain ⟨ok, w', hrun, rfl, hs⟩ :=
      wp_returns _ _ _ _ (rotateChain_shifted cfg retryInterval plan hok c hpos hc w) fun _ _ h => h
    refine ⟨w', hrun, ?_⟩
    rw [bounded_iff_none]
    exact forall₂_congr fun n hn => by rw [hs.above n hn]
  · obtain ⟨⟨⟩, w', hrun, -, hs⟩ :=
      wp_returns _ _ _ _ (rotate_renewed cfg retryInterval plan hok hapart hpos w) fun _ _ h => h
    refine ⟨w', hrun, ?_⟩
    rw [bounded_iff_none]
    exact forall₂_congr fun n hn => by rw [hs _ (hunowned n hn)]

end Lowered

theorem rotation_bounded_iff_gapped :
    ∃ w', rotateChain pair SinkRecovery.kRetryInterval .fine .text gapped = (.ok true, w') ∧
    ¬ Bounded pair .text w' := by
  obtain ⟨⟨w', hrun, hiff⟩, -⟩ :=
    rotation_bounded_iff pair SinkRecovery.kRetryInterval .fine (fun _ => rfl) .text (by decide)
      (by decide) gapped
  refine ⟨w', hrun, fun h => ?_⟩
  have hnone := hiff.mp h 5 (by decide)
  rw [gapped_files.2.2] at hnone
  cases hnone

/-- Generation 3 of a chain that had a higher `max_files` once. -/
def lowered : World where
  disk p := if p = Chain.path pair .text 3 then some (ascii "old") else none

/-- It is there after a rotation that keeps two. -/
theorem lowered_stays : ¬ ∀ (cfg : OutputConfig) (retryInterval : ℕ) (plan : Plan) (c : Chain)
    (w w' : World), plan.AllOk →
    c.Configured cfg → 0 < cfg.maxFiles → cfg.maxFiles ≤ kMaxFilesLimit →
    (∀ n, kMaxFilesLimit < n → w.disk (c.path cfg n) = none) →
    rotateChain cfg retryInterval plan c w = (.ok true, w') → Bounded cfg c w' := by
  intro h
  obtain ⟨ok, w', hrun, rfl, hs⟩ := wp_returns _ _ _ _
    (rotateChain_shifted pair SinkRecovery.kRetryInterval .fine (fun _ => rfl) .text (by decide)
      (by decide) lowered) fun _ _ h => h
  have hlimit : ∀ n, kMaxFilesLimit < n → lowered.disk (Chain.path pair .text n) = none := by
    intro n hn
    refine if_neg fun heq => ?_
    have hthree := slotPath_injective _ _ _ heq
    unfold kMaxFilesLimit at hn
    omega
  have hbounded := h pair SinkRecovery.kRetryInterval .fine .text lowered w' (fun _ => rfl) (by decide)
    (by decide) (by decide) hlimit hrun
  have hnone := hbounded.none 3 (by decide)
  rw [hs.above 3 (by decide), lowered] at hnone
  dsimp only at hnone
  rw [if_pos rfl] at hnone
  cases hnone

end Minilog.Output
