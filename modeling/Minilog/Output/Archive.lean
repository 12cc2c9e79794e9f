import Minilog.Lib.Slots
import Minilog.Output.LogFile

/-! The files of a sink as numbered slots.

`slots cfg disk c` are the files of chain `c`, slot 0 the active one; under `Apart` an operation on one of
them changes that slot and nothing else (`archive_update`). `Calm`, `Idle` and `Down` describe the sink
itself. The rest are the rules of the calls that can fail: what a failure leaves behind, and which call is to
blame. -/
namespace Minilog.Output
open Lib Lib.Effect
open Minilog.Parser Minilog.Server
set_option autoImplicit false

def Chain.Configured (cfg : OutputConfig) (c : Chain) : Prop := c.file cfg ≠ []

instance (cfg : OutputConfig) (c : Chain) : Decidable (c.Configured cfg) := inferInstanceAs (Decidable (_ ≠ _))

/-- No file of one chain is a file of the other. -/
def Apart (cfg : OutputConfig) : Prop :=
  cfg.textFile ≠ [] → cfg.jsonlFile ≠ [] →
    Disjoint (OwnedFile.family ⟨cfg.textFile, cfg.maxFiles⟩) (OwnedFile.family ⟨cfg.jsonlFile, cfg.maxFiles⟩)

/-- The files are written in normal form, in which a path stands for one file and a file has one path, and
none of one chain is a file of the other. -/
structure Separated (cfg : OutputConfig) : Prop where
  normalised : ∀ c, Chain.Configured cfg c → Normalised (c.file cfg)
  apart : Apart cfg

abbrev depth (cfg : OutputConfig) : ℕ := generationLimit cfg.maxFiles

def slots (cfg : OutputConfig) (disk : Disk) (c : Chain) : Slots Bytes := fun n =>
  if c.Configured cfg ∧ n ≤ depth cfg then disk (c.path cfg n) else none

/-- The paths a sink may touch. -/
def Owns (cfg : OutputConfig) (p : Bytes) : Prop :=
  ∃ c n, Chain.Configured cfg c ∧ n ≤ depth cfg ∧ p = c.path cfg n

open Classical in
/-- The files that are none of the sink's. -/
noncomputable def outside (cfg : OutputConfig) (disk : Disk) : Disk :=
  fun p => if Owns cfg p then none else disk p

/-- A world without its sink. -/
structure Archive where
  slots : Chain → Slots Bytes
  outside : Disk
  trace : List Deed
  running : Bool

noncomputable def World.archive (cfg : OutputConfig) (w : World) : Archive :=
  ⟨Output.slots cfg w.disk, Output.outside cfg w.disk, w.trace, w.running⟩

namespace Archive

def put (a : Archive) (c : Chain) (n : ℕ) (v : Option Bytes) : Archive :=
  { a with slots := Function.update a.slots c ((a.slots c).set n v) }

def add (a : Archive) (deeds : List Deed) : Archive := { a with trace := a.trace ++ deeds }

/-- Slot `n` goes to slot `n + 1`, over the file that is there. -/
def move (a : Archive) (c : Chain) (n : ℕ) : Archive :=
  if a.slots c n = none then a
  else ((a.add ((a.slots c (n + 1)).toList.map (Deed.replaced c))).put c (n + 1) (a.slots c n)).put c n none

end Archive

/-! ## One file at a time -/

section Paths

variable (cfg : OutputConfig)

theorem path_cross (hapart : Apart cfg) (ht : cfg.textFile ≠ []) (hj : cfg.jsonlFile ≠ []) (n m : ℕ)
    (hn : n ≤ depth cfg) (hm : m ≤ depth cfg) : Chain.path cfg .text n ≠ Chain.path cfg .jsonl m := by
  intro h
  exact Set.disjoint_left.mp (hapart ht hj) ⟨n, hn, rfl⟩ ⟨m, hm, h⟩

/-- Different slots are different files. -/
theorem path_injective (hapart : Apart cfg) (c d : Chain) (hc : c.Configured cfg) (hd : d.Configured cfg)
    (n m : ℕ) (hn : n ≤ depth cfg) (hm : m ≤ depth cfg) (h : c.path cfg n = d.path cfg m) : c = d ∧ n = m := by
  cases c with
  | text =>
    cases d with
    | text => exact ⟨rfl, slotPath_injective _ _ _ h⟩
    | jsonl => exact absurd h (path_cross cfg hapart hc hd n m hn hm)
  | jsonl =>
    cases d with
    | text => exact absurd h.symm (path_cross cfg hapart hd hc m n hm hn)
    | jsonl => exact ⟨rfl, slotPath_injective _ _ _ h⟩

variable (disk : Disk) (c : Chain) (n : ℕ)

@[simp] theorem slots_apply (hc : c.Configured cfg) (hn : n ≤ depth cfg) :
    slots cfg disk c n = disk (c.path cfg n) :=
  if_pos ⟨hc, hn⟩

theorem slots_active (hc : c.Configured cfg) : slots cfg disk c 0 = disk (c.file cfg) :=
  if_pos ⟨hc, Nat.zero_le _⟩

theorem slots_absent (hc : ¬ c.Configured cfg) : slots cfg disk c n = none := if_neg fun h => hc h.1

theorem slots_update (hapart : Apart cfg) (hc : c.Configured cfg) (hn : n ≤ depth cfg) (v : Option Bytes) :
    slots cfg (Function.update disk (c.path cfg n) v) =
      Function.update (slots cfg disk) c ((slots cfg disk c).set n v) := by
  funext d m
  by_cases hd : d.Configured cfg ∧ m ≤ depth cfg
  · have hleft : slots cfg (Function.update disk (c.path cfg n) v) d m =
        Function.update disk (c.path cfg n) v (d.path cfg m) := if_pos hd
    rw [hleft]
    by_cases hdc : d = c
    · rw [hdc, Function.update_self]
      by_cases hmn : m = n
      · rw [hmn, Function.update_self, Slots.set_same]
      · have hpath : c.path cfg m ≠ c.path cfg n := fun h => hmn (slotPath_injective _ _ _ h)
        rw [Function.update_of_ne hpath, Slots.set_other _ _ _ _ hmn, slots_apply cfg disk c m hc hd.2]
    · have hpath : d.path cfg m ≠ c.path cfg n :=
        fun h => hdc (path_injective cfg hapart d c hd.1 hc m n hd.2 hn h).1
      rw [Function.update_of_ne hpath, Function.update_of_ne hdc, slots_apply cfg disk d m hd.1 hd.2]
  · have hleft : slots cfg (Function.update disk (c.path cfg n) v) d m = none := if_neg hd
    have hold : slots cfg disk d m = none := if_neg hd
    rw [hleft]
    by_cases hdc : d = c
    · rw [hdc] at hd hold
      have hmn : m ≠ n := fun h => hd ⟨hc, h ▸ hn⟩
      rw [hdc, Function.update_self, Slots.set_other _ _ _ _ hmn, hold]
    · rw [Function.update_of_ne hdc, hold]

theorem outside_update (hc : c.Configured cfg) (hn : n ≤ depth cfg) (v : Option Bytes) :
    outside cfg (Function.update disk (c.path cfg n) v) = outside cfg disk := by
  funext p
  unfold outside
  by_cases hp : Owns cfg p
  · rw [if_pos hp, if_pos hp]
  · have hne : p ≠ c.path cfg n := fun h => hp ⟨c, n, hc, hn, h⟩
    rw [if_neg hp, if_neg hp, Function.update_of_ne hne]

theorem archive_update (hapart : Apart cfg) (hc : c.Configured cfg) (hn : n ≤ depth cfg) (v : Option Bytes)
    (w : World) :
    World.archive cfg { w with disk := Function.update w.disk (c.path cfg n) v } =
      (w.archive cfg).put c n v := by
  unfold World.archive Archive.put
  simp only [slots_update cfg w.disk c n hapart hc hn, outside_update cfg w.disk c n hc hn]

end Paths

/-- The usual pair of files. -/
def pair : OutputConfig :=
  { name := ascii "main", textFile := ascii "/d/a.log", jsonlFile := ascii "/d/a.jsonl", maxSize := 4,
    maxFiles := 2 }

theorem apart_pair : Apart pair := by
  intro _ _
  rw [family_disjoint_iff _ _ (by decide) (by decide +kernel) (by decide +kernel)]
  refine ⟨?_, ?_⟩
  · rintro ⟨-, n, hn, hle, hname⟩
    obtain rfl | rfl : n = 1 ∨ n = 2 := by
      change n ≤ 2 at hle
      omega
    · exact absurd hname (by decide +kernel)
    · exact absurd hname (by decide +kernel)
  · rintro ⟨-, n, hn, hle, hname⟩
    obtain rfl | rfl : n = 1 ∨ n = 2 := by
      change n ≤ 2 at hle
      omega
    · exact absurd hname (by decide +kernel)
    · exact absurd hname (by decide +kernel)

theorem separated_pair : Separated pair where
  normalised c _ := by
    cases c with
    | text => decide +kernel
    | jsonl => decide +kernel
  apart := apart_pair

/-! ## The sink -/

/-- No stream is open. -/
def Idle (s : LogFile) : Prop := ∀ c, s.isOpen c = false ∧ s.size c = 0

/-- What `failSink` leaves. -/
def Down (s : LogFile) : Prop := s.closed = true ∧ Idle s

/-- A retry is pending only for a sink that was closed properly. -/
def Calm (s : LogFile) : Prop := s.retryArmed = true → Down s

/-- Only the sink changed, and no retry was armed without closing it. -/
structure Quiet (w w' : World) : Prop where
  disk : w'.disk = w.disk
  trace : w'.trace = w.trace
  running : w'.running = w.running
  calm : Calm w.sink → Calm w'.sink

theorem Quiet.refl (w : World) : Quiet w w := ⟨rfl, rfl, rfl, id⟩

theorem Quiet.trans (w w' w'' : World) (h : Quiet w w') (h' : Quiet w' w'') : Quiet w w'' :=
  ⟨h'.disk.trans h.disk, h'.trace.trans h.trace, h'.running.trans h.running, h'.calm ∘ h.calm⟩

theorem Quiet.archive (cfg : OutputConfig) (w w' : World) (h : Quiet w w') :
    w'.archive cfg = w.archive cfg := by
  unfold World.archive
  rw [h.disk, h.trace, h.running]

/-! ## Calls -/

section Calls

variable (cfg : OutputConfig) (retryInterval : ℕ) (plan : Plan)

abbrev Plan.Ok (plan : Plan) (call : Call) : Prop := plan.outcome call = .ok

theorem attempt_rule (call : Call) (w : World) (Q : Option Bytes → World → Prop) (E : Exit → World → Prop)
    (hok : plan.Ok call → Q none w) (hfail : ¬ plan.Ok call → ∀ message, Q (some message) w)
    (hexit : ¬ plan.Ok call → ∀ e, E e w) : wp (attempt plan call) Q E w := by
  unfold attempt
  unfold Plan.Ok at hok hfail hexit
  cases h : plan.outcome call with
  | ok => exact hok h
  | fails message => exact hfail (by simp [h]) message
  | throws what => exact hexit (by simp [h]) _
  | killed => exact hexit (by simp [h]) _

theorem reach_rule (call : Call) (w : World) (Q : Unit → World → Prop) (E : Exit → World → Prop) (hok : Q () w)
    (hexit : ¬ plan.Ok call → ∀ e, E e w) : wp (reach plan call) Q E w := by
  unfold reach
  unfold Plan.Ok at hexit
  cases h : plan.outcome call with
  | ok => exact hok
  | fails message => exact hok
  | throws what => exact hexit (by simp [h]) _
  | killed => exact hexit (by simp [h]) _

theorem osLog_quiet (line : Bytes) (w : World) :
    wp (osLog plan line) (fun _ w' => Quiet w w' ∧ w'.sink = w.sink) (fun _ w' => Quiet w w' ∧
      w'.sink = w.sink) w := by
  unfold osLog
  rw [wp_bind]
  apply reach_rule
  · exact ⟨⟨rfl, rfl, rfl, id⟩, rfl⟩
  · intro _ e
    exact ⟨Quiet.refl w, rfl⟩

/-- What is left to do once the failure has been reported. -/
theorem shut_down (w : World) (s : LogFile) :
    wp (do onSink fun s => { s with closed := true }
           closeFiles
           scheduleRetry : M Unit)
      (fun _ w' => Quiet w w' ∧ Down w'.sink) (fun _ _ => False) { w with sink := s } := by
  have hdown : Down { s with closed := true, isOpen := fun _ => false, size := fun _ => 0 } :=
    ⟨rfl, fun _ => ⟨rfl, rfl⟩⟩
  unfold closeFiles scheduleRetry onSink
  simp only [wp_bind, wp_modify]
  split
  · exact ⟨⟨rfl, rfl, rfl, fun _ _ => hdown⟩, hdown⟩
  · exact ⟨⟨rfl, rfl, rfl, fun _ _ => hdown⟩, hdown⟩

theorem failSink_quiet (reason : Bytes) (w : World) :
    wp (failSink cfg retryInterval plan reason) (fun _ w' => Quiet w w' ∧
      Down w'.sink) (fun _ w' => Quiet w w') w := by
  -- reports leave the world as it is, apart from the recovery state they have just updated
  have hreport : ∀ (line : Bytes) (s : LogFile) (Q : Unit → World → Prop), (Calm w.sink → Calm s) →
      (∀ w', Quiet w w' → w'.sink = s → Q () w') →
      wp (osLog plan line) Q (fun _ w' => Quiet w w') { w with sink := s } := by
    intro line s Q hcalm hQ
    refine wp_mono _ _ _ _ _ _ (osLog_quiet plan line { w with sink := s }) ?_ ?_
    · rintro - w' ⟨hq, hs⟩
      exact hQ w' ⟨hq.disk, hq.trace, hq.running, fun h => hq.calm (hcalm h)⟩ hs
    · rintro - w' ⟨hq, hs⟩
      exact ⟨hq.disk, hq.trace, hq.running, fun h => hq.calm (hcalm h)⟩
  have hshut : ∀ w', Quiet w w' →
      wp (do onSink fun s => { s with closed := true }
             closeFiles
             scheduleRetry : M Unit) (fun _ w' => Quiet w w' ∧ Down w'.sink) (fun _ w' => Quiet w w') w' := by
    intro w' hq
    refine wp_mono _ _ _ _ _ _ (shut_down w' w'.sink) ?_ (fun _ _ h => h.elim)
    rintro - w'' ⟨hq', hd⟩
    exact ⟨Quiet.trans _ _ _ hq hq', hd⟩
  unfold failSink
  simp only [wp_bind, wp_get]
  split
  · rw [wp_bind]
    refine hreport _ w.sink _ id ?_
    intro w' hq hs
    have hdown : Down { w'.sink with closed := true, isOpen := fun _ => false, size := fun _ => 0 } :=
      ⟨rfl, fun _ => ⟨rfl, rfl⟩⟩
    exact ⟨⟨hq.disk, hq.trace, hq.running, fun _ _ => hdown⟩, hdown⟩
  · have hcalm : Calm w.sink → Calm { w.sink with recovery := (w.sink.recovery.onFailure plan.now).2 } := id
    rw [wp_bind]
    unfold onSink at *
    rw [wp_modify]
    split
    · split
      · rw [wp_bind]
        exact hreport _ _ _ hcalm fun w' hq _ => hshut w' hq
      · rw [wp_bind]
        exact hreport _ _ _ hcalm fun w' hq _ => hshut w' hq
    · exact hshut _ ⟨rfl, rfl, rfl, hcalm⟩

theorem failSinkFromHandler_quiet (what : Bytes) (w : World) :
    wp (failSinkFromHandler cfg retryInterval plan what) (fun _ w' => Quiet w w' ∧ w'.sink.closed = true)
      (fun _ w' => Quiet w w') w := by
  unfold failSinkFromHandler
  rw [wp_handle]
  refine wp_mono _ _ _ _ _ _ (failSink_quiet cfg retryInterval plan _ w) ?_ ?_
  · rintro - w' ⟨hq, hd⟩
    exact ⟨hq, hd.1⟩
  · intro e w' hq
    cases e with
    | raised what => exact ⟨⟨hq.disk, hq.trace, hq.running, fun h ha => ⟨rfl, (hq.calm h ha).2⟩⟩, rfl⟩
    | killed => exact hq

/-- A handler ends as its body does, or with the sink closed. -/
theorem guarded_rule (body : M Unit) (w : World) (Q X : World → Prop)
    (h : wp body (fun _ => Q) (fun _ => X) w) :
    wp (guarded cfg retryInterval plan body) (fun _ w' => Q w' ∨ ∃ v, X v ∧ Quiet v w' ∧ w'.sink.closed = true)
      (fun _ w' => ∃ v, X v ∧ Quiet v w') w := by
  unfold guarded
  rw [wp_handle]
  refine wp_mono _ _ _ _ _ _ h (fun _ w' hQ => .inl hQ) ?_
  intro e v hv
  cases e with
  | raised what =>
    refine wp_mono _ _ _ _ _ _ (failSinkFromHandler_quiet cfg retryInterval plan what v) ?_ ?_
    · rintro - w' ⟨hq, hc⟩
      exact .inr ⟨v, hv, hq, hc⟩
    · intro _ w' hq
      exact ⟨v, hv, hq⟩
  | killed => exact ⟨v, hv, Quiet.refl v⟩

theorem probeFile_rule (call : Call) (path : Bytes) (w : World) (Q : Option Bool → World → Prop)
    (E : Exit → World → Prop) (hok : plan.Ok call → Q (some (w.disk path).isSome) w)
    (hfail : ¬ plan.Ok call → ∀ w', Quiet w w' → Down w'.sink → Q none w')
    (hexit : ¬ plan.Ok call → ∀ e w', Quiet w w' → E e w') :
    wp (probeFile cfg retryInterval plan call path) Q E w := by
  unfold probeFile
  rw [wp_bind]
  apply attempt_rule
  · exact hok
  · intro hbad message
    rw [wp_bind]
    refine wp_mono _ _ _ _ _ _ (failSink_quiet cfg retryInterval plan _ w) ?_
      (fun e w' hq => hexit hbad e w' hq)
    rintro - w' ⟨hq, hd⟩
    exact hfail hbad w' hq hd
  · intro hbad e
    exact hexit hbad e w (Quiet.refl w)

theorem shiftOne_rule (hapart : Apart cfg) (c : Chain) (hc : c.Configured cfg) (n : ℕ)
    (hn : n + 1 ≤ depth cfg) (w : World) (Q : Bool → World → Prop) (E : Exit → World → Prop)
    (hok : (plan.Ok (.probeShift c n) ∧ (slots cfg w.disk c n ≠ none → plan.Ok (.rename c n))) →
      ∀ w', w'.archive cfg = (w.archive cfg).move c n → w'.sink = w.sink → Q true w')
    (hfail : ¬ (plan.Ok (.probeShift c n) ∧ plan.Ok (.rename c n)) → ∀ w', Quiet w w' → Down w'.sink →
      Q false w')
    (hexit : ¬ (plan.Ok (.probeShift c n) ∧ plan.Ok (.rename c n)) → ∀ e w', Quiet w w' → E e w') :
    wp (shiftOne cfg retryInterval plan c n) Q E w := by
  have hslot : (w.archive cfg).slots c n = w.disk (c.path cfg n) := slots_apply cfg w.disk c n hc (by omega)
  have hnext : (w.archive cfg).slots c (n + 1) = w.disk (c.path cfg (n + 1)) :=
    slots_apply cfg w.disk c (n + 1) hc hn
  unfold shiftOne
  rw [wp_bind]
  apply probeFile_rule
  · intro hprobe
    cases hf : w.disk (c.path cfg n) with
    | none =>
      refine hok ⟨hprobe, fun h => absurd (hslot.trans hf) h⟩ w ?_ rfl
      unfold Archive.move
      rw [if_pos (hslot.trans hf)]
    | some content =>
      simp only [Option.isSome_some, wp_bind]
      apply attempt_rule
      · intro hrename
        have hmove : (w.archive cfg).move c n =
            (((w.archive cfg).add ((w.disk (c.path cfg (n + 1))).toList.map (Deed.replaced c))).put c (n + 1)
              (w.disk (c.path cfg n))).put c n none := by
          unfold Archive.move
          rw [if_neg (by rw [hslot, hf]; exact Option.some_ne_none content), hslot, hnext]
        simp only [wp_bind, wp_get]
        cases hg : w.disk (c.path cfg (n + 1)) with
        | none =>
          refine hok ⟨hprobe, fun _ => hrename⟩ _ ?_ rfl
          rw [hmove, hg, archive_update cfg c n hapart hc (by omega),
            archive_update cfg c (n + 1) hapart hc hn, hf]
          simp [Archive.add]
        | some old =>
          refine hok ⟨hprobe, fun _ => hrename⟩ _ ?_ rfl
          rw [hmove, hg, archive_update cfg c n hapart hc (by omega),
            archive_update cfg c (n + 1) hapart hc hn, hf]
          rfl
      · intro hbad message
        rw [wp_bind]
        refine wp_mono _ _ _ _ _ _ (failSink_quiet cfg retryInterval plan _ w) ?_
          (fun e w' hq => hexit (fun h => hbad h.2) e w' hq)
        rintro - w' ⟨hq, hd⟩
        exact hfail (fun h => hbad h.2) w' hq hd
      · intro hbad e
        exact hexit (fun h => hbad h.2) e w (Quiet.refl w)
  · intro hbad w' hq hd
    exact hfail (fun h => hbad h.1) w' hq hd
  · intro hbad e w' hq
    exact hexit (fun h => hbad h.1) e w' hq

end Calls

end Minilog.Output
