import Minilog.Output.Handlers
import Minilog.Output.Jsonl

/-! Which generations a sink gives up.

A rotation removes the last of `max_files` generations to make room for the active file. After a rotation that
failed half way the next one starts over on what it finds, gaps and empty files included; without such faults
(`Orderly`) the generations are always 1, ..., `k`, none of them empty, and a file is removed only when there
are `max_files`. -/
namespace Minilog.Output
open Lib Lib.Effect
open Minilog.Parser Minilog.Server
set_option autoImplicit false

variable (cfg : OutputConfig)

/-- A generation with content is removed only if all `max_files` generations have content. -/
def Earned : Deed → Prop
  | .removed c _ content before =>
    content ≠ [] → ∀ n, 1 ≤ n → n ≤ cfg.maxFiles → ∃ b, before (c.path cfg n) = some b ∧ b ≠ []
  | _ => True

/-- A message that rotates the files finds no active file empty, and no fault comes between two renames of a
chain. -/
def Orderly (w : World) (e : Event) : Prop :=
  match e with
  | .write msg _ plan => Takes cfg w msg → Due cfg (w.archive cfg) → ∀ c, Chain.Configured cfg c →
      (∃ b, slots cfg w.disk c 0 = some b ∧ b ≠ []) ∧ Steady cfg plan (slots cfg w.disk c) c
  | _ => True

/-- No gaps, and nothing given up too early. -/
structure Kept (a : Archive) : Prop where
  earned : ∀ deed ∈ a.trace, Earned cfg deed
  filled : ∀ c, Chain.Configured cfg c → ∃ k, Filled cfg (a.slots c) k

variable {cfg}

theorem Opened.keeps {a a' : Archive} (h : Opened a a') (hk : Kept cfg a) : Kept cfg a' := by
  refine ⟨by rw [h.trace]; exact hk.earned, fun c hc => ?_⟩
  obtain ⟨k, hf⟩ := hk.filled c hc
  exact ⟨k, h.filled cfg c k hf⟩

theorem Steady.congr {plan : Plan} {s t : Slots Bytes} {c : Chain} (h : Steady cfg plan s c)
    (hst : ∀ n, n ≠ 0 → t n = s n) :
    Steady cfg plan t c := by
  intro n hn hlt hused habove
  refine h n hn hlt (by rw [← hst n (by omega)]; exact hused) ?_
  intro m hm hm'
  rw [← hst m (by omega)]
  exact habove m hm hm'

/-- What is removed from a chain of `max_files` generations is removed rightly. -/
theorem Dropped.earned {c : Chain} (hc : c.Configured cfg) {k : ℕ} {w w' : World} (h : Dropped cfg c k w w')
    (hf : Filled cfg ((w.archive cfg).slots c) k) (he : ∀ deed ∈ w.trace, Earned cfg deed)
    (hpos : 0 < cfg.maxFiles) :
    ∀ deed ∈ w'.trace, Earned cfg deed := by
  cases h with
  | inl h =>
    rw [h]
    exact he
  | inr h =>
    obtain ⟨content, hk, htrace⟩ := h
    rw [htrace]
    intro deed hdeed
    cases List.mem_append.mp hdeed with
    | inl hold => exact he deed hold
    | inr hnew =>
      rw [List.mem_singleton.mp hnew]
      intro _ n hn hle
      obtain ⟨b, hb, hne⟩ := hf.2.1 n hn (by omega)
      have hdepth := depth_pos cfg hpos
      exact ⟨b, (slots_apply cfg w.disk c n hc (by omega)).symm.trans hb, hne⟩

/-- One chain of an orderly rotation. -/
theorem Stage.keeps {plan : Plan} {c : Chain} {done : Bool} {w w' : World} (h : Stage cfg plan c done w w')
    (hpos : 0 < cfg.maxFiles) (hk : Kept cfg (w.archive cfg))
    (hcond : c.Configured cfg → (∃ b, (w.archive cfg).slots c 0 = some b ∧ b ≠ []) ∧
      Steady cfg plan ((w.archive cfg).slots c) c) :
    Kept cfg (w'.archive cfg) := by
  by_cases hc : c.Configured cfg
  · obtain ⟨k, hf⟩ := hk.filled c hc
    obtain ⟨⟨k', hf', -⟩, hdropped⟩ := h.filled hc hpos k hf (hcond hc).1 (hcond hc).2
    refine ⟨hdropped.earned hc hf hk.earned hpos, fun d hd => ?_⟩
    by_cases hdc : d = c
    · rw [hdc]
      exact ⟨k', hf'⟩
    · rw [h.aged.frame.slots d hdc]
      exact hk.filled d hd
  · refine ⟨?_, fun d hd => ?_⟩
    · change ∀ deed ∈ w'.trace, Earned cfg deed
      rw [h.absent hc]
      exact hk.earned
    · have hdc : d ≠ c := fun hdc => hc (hdc ▸ hd)
      rw [h.aged.frame.slots d hdc]
      exact hk.filled d hd

theorem Rotated.keeps {plan : Plan} {done : Bool} {w w' : World} (h : Rotated cfg plan done w w')
    (hpos : 0 < cfg.maxFiles) (hk : Kept cfg (w.archive cfg)) (hcond : ∀ c, Chain.Configured cfg c →
      (∃ b, (w.archive cfg).slots c 0 = some b ∧ b ≠ []) ∧ Steady cfg plan ((w.archive cfg).slots c) c) :
    Kept cfg (w'.archive cfg) := by
  obtain ⟨w₁, w₂, text, jsonl, ht, hj, ho, -⟩ := h
  have hk₁ := ht.keeps hpos hk (hcond .text)
  refine ho.keeps (hj.keeps hpos hk₁ fun hc => ?_)
  -- the text chain has moved, the jsonl chain has not
  rw [ht.aged.frame.slots .jsonl (by decide)]
  exact hcond .jsonl hc

theorem Appended.keeps {plan : Plan} {c : Chain} {line : Bytes} {done : Bool} {a a' : Archive}
    (h : Appended cfg plan c line a done a') (hk : Kept cfg a) : Kept cfg a' := by
  have hput : ∀ (b : Archive) (v : Option Bytes), Kept cfg b → Kept cfg (b.put c 0 v) := by
    intro b v hb
    refine ⟨hb.earned, fun d hd => ?_⟩
    by_cases hdc : d = c
    · obtain ⟨k, hf⟩ := hb.filled d hd
      rw [hdc] at hf ⊢
      rw [put_slots]
      exact ⟨k, hf.congr fun n hn => Slots.set_other _ _ _ _ hn⟩
    · rw [put_slots_other c b 0 v d hdc]
      exact hb.filled d hd
  cases h with
  | absent hc => exact hk
  | untouched => exact hk
  | torn content hc hold hbad => exact hput a _ hk
  | whole content hc hold =>
    refine hput _ _ ⟨?_, hk.filled⟩
    intro deed hdeed
    cases List.mem_append.mp hdeed with
    | inl hmem => exact hk.earned deed hmem
    | inr hmem =>
      rw [List.mem_singleton.mp hmem]
      trivial

theorem Prepared.keeps {plan : Plan} {done : Bool} {w w' : World} (h : Prepared cfg plan done w w')
    (hpos : 0 < cfg.maxFiles) (hk : Kept cfg (w.archive cfg))
    (hcond : Due cfg (w.archive cfg) → ∀ c, Chain.Configured cfg c →
      (∃ b, slots cfg w.disk c 0 = some b ∧ b ≠ []) ∧ Steady cfg plan (slots cfg w.disk c) c) :
    Kept cfg (w'.archive cfg) := by
  by_cases hdue : Due cfg (w.archive cfg)
  · obtain ⟨w₁, ho, hr⟩ := h.due hdue
    refine hr.keeps hpos (ho.keeps hk) fun c hc => ?_
    obtain ⟨⟨b, hb, hne⟩, hsteady⟩ := hcond hdue c hc
    refine ⟨⟨b, ?_, hne⟩, hsteady.congr fun n hn => ho.later c n hn⟩
    have hsome : (w.archive cfg).slots c 0 = some b := hb
    rw [ho.kept c (by rw [hsome]; exact Option.some_ne_none b), hsome]
  · exact (h.notDue hdue).keeps hk

variable (serialize : List (Bytes × Option Bytes) → Bytes)

theorem Handled.keeps (hpos : 0 < cfg.maxFiles) (e : Event) (w v : World) (h : Handled cfg serialize e w v)
    (horderly : Orderly cfg w e) (hk : Kept cfg (w.archive cfg)) : Kept cfg (v.archive cfg) := by
  cases e with
  | start openNow plan => exact Opened.keeps h hk
  | retry plan => exact Opened.keeps h hk
  | close => exact Opened.keeps h hk
  | write msg rcv plan =>
    cases h with
    | inr h => exact h.2.keeps hk
    | inl h =>
      obtain ⟨htakes, done, hwritten⟩ := h
      cases hwritten with
      | stopped hp => exact hp.keeps hpos hk (horderly htakes)
      | wrote w₁ a₂ text jsonl hp hready ht hj => exact hj.keeps (ht.keeps (hp.keeps hpos hk (horderly htakes)))

/-- In every orderly run that starts without files, a generation with content is removed only from a chain of
`max_files` generations with content. -/
theorem run_removed_earned (retryInterval : ℕ) (hfiles : Separated cfg) (hpos : 0 < cfg.maxFiles)
    (events : List Event) (horderly : Along cfg retryInterval serialize (Orderly cfg) blank events)
    (c : Chain) (n : ℕ) (content : Bytes) (before : Disk)
    (hremoved : Deed.removed c n content before ∈ (run cfg retryInterval serialize blank events).trace)
    (hne : content ≠ []) :
    ∀ m, 1 ≤ m → m ≤ cfg.maxFiles → ∃ b, before (c.path cfg m) = some b ∧ b ≠ [] := by
  have hkept : Kept cfg ((run cfg retryInterval serialize blank events).archive cfg) := by
    refine run_invariant cfg retryInterval serialize hfiles.apart (Orderly cfg)
      (Kept cfg) ?_ ?_ events blank ?_ ?_ horderly
    · intro a r h
      exact ⟨h.earned, h.filled⟩
    · intro e w v hv ho hk
      exact Handled.keeps serialize hpos e w v hv ho hk
    · intro hrun
      cases hrun
    · refine ⟨fun deed hdeed => (by cases hdeed),
        fun d _ => ⟨0, Nat.zero_le _, fun m hm hm' => by omega, fun m _ => ?_⟩⟩
      change slots cfg blank.disk d m = none
      unfold slots
      split
      · rfl
      · rfl
  exact hkept.earned _ hremoved hne

theorem orderly_fine (w : World) (msg : SyslogMessage) (rcv : Bytes)
    (h : ∀ c, Chain.Configured cfg c → slots cfg w.disk c 0 ≠ none ∧ slots cfg w.disk c 0 ≠ some []) :
    Orderly cfg w (.write msg rcv .fine) := by
  intro _ _ c hc
  obtain ⟨hnone, hempty⟩ := h c hc
  obtain ⟨b, hb⟩ := Option.ne_none_iff_exists'.mp hnone
  exact ⟨⟨b, hb, fun hnil => hempty (hb.trans (congrArg some hnil))⟩, steady_of_allOk cfg _ _ c fun _ => rfl⟩

/-- Four messages, each of which fills the files: the fourth removes the first. -/
def fourMessages : List Event := [.start true .fine, sample "abcd", sample "efgh", sample "ijkl", sample "mnop"]

theorem run_removed_full :
    let w := run pair SinkRecovery.kRetryInterval jsonText blank fourMessages
    ∃ content before, Deed.removed .text 2 content before ∈ w.trace ∧
      (∃ b, before (ascii "/d/a.1.log") = some b ∧ b ≠ []) ∧
      (∃ b, before (ascii "/d/a.2.log") = some b ∧ b ≠ []) := by
  intro w
  have hfound : w.trace.any (fun deed => match deed with
      | .removed c n content _ => c = .text && n = 2 && content ≠ []
      | _ => false) = true := by decide +kernel
  obtain ⟨deed, hmem, hdeed⟩ := List.any_eq_true.mp hfound
  cases deed with
  | wrote c line => cases hdeed
  | replaced c content => cases hdeed
  | removed c n content before =>
    simp only [Bool.and_eq_true, decide_eq_true_eq] at hdeed
    obtain ⟨⟨rfl, rfl⟩, hne⟩ := hdeed
    have hfirst : Orderly pair (step pair SinkRecovery.kRetryInterval jsonText blank (.start true .fine))
        (sample "abcd") := by
      rintro - ⟨-, c, content, hcontent, hlen⟩
      have hnil : some content = some [] := by
        rw [← hcontent]
        cases c with
        | text => decide +kernel
        | jsonl => decide +kernel
      rw [Option.some.inj hnil] at hlen
      cases hlen
    have hearned := run_removed_earned jsonText SinkRecovery.kRetryInterval separated_pair
      (by decide) fourMessages ⟨trivial, hfirst, orderly_fine _ _ _ fun c _ => by cases c <;> decide +kernel,
        orderly_fine _ _ _ fun c _ => by cases c <;> decide +kernel,
        orderly_fine _ _ _ fun c _ => by cases c <;> decide +kernel, trivial⟩ .text 2 content before hmem hne
    exact ⟨content, before, hmem, hearned 1 (by decide) (by decide), hearned 2 (by decide) (by decide)⟩

/-- The jsonl chain cannot be rotated for a while. -/
def stuckJsonl : List Event :=
  [.start true .fine, sample "abcd", sample "efgh", sample "ijkl",
    .write { raw := ascii "mnop" } [] (.fault (.probe .jsonl 1) 0), .retry .fine,
    .write { raw := ascii "qrst" } [] (.fault (.probe .jsonl 1) 0), .retry .fine,
    .write { raw := ascii "uvwx" } [] (.fault (.probe .jsonl 1) 0)]

/-- Each attempt rotates the text chain once more, and the third one removes its last generation with
content. -/
theorem run_removed_early :
    let w := run pair SinkRecovery.kRetryInterval jsonText blank stuckJsonl
    ∃ content before, Deed.removed .text 2 content before ∈ w.trace ∧ content ≠ [] ∧
      before (ascii "/d/a.1.log") = some [] ∧ before (ascii "/d/a.2.log") = some content := by
  intro w
  have hfound : w.trace.any (fun deed => match deed with
      | .removed c n content before =>
        c = .text && n = 2 && content ≠ [] && before (ascii "/d/a.1.log") = some [] &&
          before (ascii "/d/a.2.log") = some content
      | _ => false) = true := by decide +kernel
  obtain ⟨deed, hmem, hdeed⟩ := List.any_eq_true.mp hfound
  cases deed with
  | wrote c line => cases hdeed
  | replaced c content => cases hdeed
  | removed c n content before =>
    simp only [Bool.and_eq_true, decide_eq_true_eq] at hdeed
    obtain ⟨⟨⟨⟨rfl, rfl⟩, hne⟩, hone⟩, htwo⟩ := hdeed
    exact ⟨content, before, hmem, hne, hone, htwo⟩

end Minilog.Output
