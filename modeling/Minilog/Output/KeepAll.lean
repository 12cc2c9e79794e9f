import Minilog.Output.History

/-! A sink that keeps every generation (`max_files = 0`), when nothing goes wrong.

The loop that looks for the highest generation stops at 1000, and nothing is removed. `Stacked cfg k`
describes the files after `k` rotations: generations 1, ..., `k`, up to the generation 1001 that the shift
from 1000 fills and that every later rotation replaces. -/
namespace Minilog.Output
open Lib Lib.Effect
open Minilog.Parser Minilog.Server
set_option autoImplicit false

/-! ## One chain -/

namespace Archive

/-- The generations `n`, ..., 1 and then the active file go one slot up. -/
def shift (c : Chain) : ℕ → Archive → Archive
  | 0, a => a.move c 0
  | n + 1, a => shift c n (a.move c (n + 1))

end Archive

theorem move_used (c : Chain) (a : Archive) (n : ℕ) (hn : a.slots c n ≠ none) :
    (a.move c n).trace = a.trace ++ (a.slots c (n + 1)).toList.map (Deed.replaced c) ∧
      ∀ m, (a.move c n).slots c m = if m = n then none else if m = n + 1 then a.slots c n else a.slots c m := by
  unfold Archive.move
  rw [if_neg hn]
  refine ⟨rfl, ?_⟩
  intro m
  rw [put_slots, put_slots]
  by_cases hm : m = n
  · rw [if_pos hm, hm, Slots.set_same]
  · rw [if_neg hm, Slots.set_other _ _ _ _ hm]
    by_cases hm' : m = n + 1
    · rw [if_pos hm', hm', Slots.set_same]
    · rw [if_neg hm', Slots.set_other _ _ _ _ hm']
      rfl

theorem shift_frame (c : Chain) (h : ℕ) (a : Archive) :
    (a.shift c h).outside = a.outside ∧ (a.shift c h).running = a.running ∧
      ∀ d, d ≠ c → (a.shift c h).slots d = a.slots d := by
  induction h generalizing a with
  | zero => exact ⟨(move_frame c a 0).1, (move_frame c a 0).2, move_slots_other c a 0⟩
  | succ h ih =>
    obtain ⟨ho, hr, hs⟩ := ih (a.move c (h + 1))
    refine ⟨ho.trans (move_frame c a _).1, hr.trans (move_frame c a _).2, ?_⟩
    intro d hd
    rw [Archive.shift, hs d hd, move_slots_other c a _ d hd]

/-- When all slots up to `h` are in use, only the file behind them can be replaced. -/
theorem shift_full (c : Chain) (h : ℕ) (a : Archive) (hfull : ∀ m, m ≤ h → a.slots c m ≠ none) :
    (a.shift c h).trace = a.trace ++ (a.slots c (h + 1)).toList.map (Deed.replaced c) ∧
      ∀ n, (a.shift c h).slots c n = if n = 0 then none else if n ≤ h + 1 then a.slots c (n - 1)
      else a.slots c n := by
  induction h generalizing a with
  | zero =>
    obtain ⟨htrace, hslots⟩ := move_used c a 0 (hfull 0 (Nat.le_refl _))
    refine ⟨htrace, ?_⟩
    intro n
    rw [Archive.shift, hslots]
    by_cases hn : n = 0
    · rw [if_pos hn, if_pos hn]
    · rw [if_neg hn, if_neg hn]
      by_cases hn' : n = 0 + 1
      · rw [if_pos hn', if_pos (by omega), hn']
      · rw [if_neg hn', if_neg (by omega)]
  | succ h ih =>
    obtain ⟨htrace, hslots⟩ := move_used c a (h + 1) (hfull (h + 1) (Nat.le_refl _))
    have hbelow : ∀ m, m ≤ h → (a.move c (h + 1)).slots c m = a.slots c m := by
      intro m hm
      rw [hslots, if_neg (by omega), if_neg (by omega)]
    obtain ⟨htrace', hslots'⟩ := ih (a.move c (h + 1)) fun m hm => by
      rw [hbelow m hm]
      exact hfull m (by omega)
    refine ⟨?_, ?_⟩
    · have hfree : (a.move c (h + 1)).slots c (h + 1) = none := by rw [hslots, if_pos rfl]
      rw [Archive.shift, htrace', hfree, htrace]
      exact List.append_nil _
    · intro n
      rw [Archive.shift, hslots']
      by_cases hn : n = 0
      · rw [if_pos hn, if_pos hn]
      rw [if_neg hn, if_neg hn]
      by_cases hn' : n ≤ h + 1
      · rw [if_pos hn', if_pos (by omega), hbelow _ (by omega)]
      rw [if_neg hn', hslots, if_neg (by omega)]
      by_cases htop : n = h + 1 + 1
      · rw [if_pos htop, if_pos (by omega), htop]
        rfl
      · rw [if_neg htop, if_neg (by omega)]

section Fine

variable (cfg : OutputConfig) (retryInterval : ℕ) (plan : Plan) (hapart : Apart cfg) (hok : plan.AllOk)

include hapart hok in
theorem shiftDown_fine (c : Chain) (hc : c.Configured cfg) (n : ℕ) (hn : n + 1 ≤ depth cfg) (w : World) :
    wp (shiftDown cfg retryInterval plan c n)
      (fun ok w' => ok = true ∧ w'.archive cfg = (w.archive cfg).shift c n ∧ w'.sink = w.sink)
      (fun _ _ => False) w := by
  have hone : ∀ (m : ℕ) (u : World) (Q : Bool → World → Prop), m + 1 ≤ depth cfg →
      (∀ u', u'.archive cfg = (u.archive cfg).move c m → u'.sink = u.sink → Q true u') →
      wp (shiftOne cfg retryInterval plan c m) Q (fun _ _ => False) u := by
    intro m u Q hm hQ
    apply shiftOne_rule cfg retryInterval plan hapart c hc m hm
    · exact fun _ => hQ
    · exact fun hbad => absurd ⟨hok _, hok _⟩ hbad
    · exact fun hbad => absurd ⟨hok _, hok _⟩ hbad
  induction n generalizing w with
  | zero =>
    change wp (shiftOne cfg retryInterval plan c 0) _ _ w
    exact hone 0 w _ hn fun u hu hs => ⟨rfl, hu, hs⟩
  | succ n ih =>
    unfold shiftDown shiftUp
    rw [wp_bind, wp_bind]
    apply hone (n + 1) w _ hn
    intro u hu hs
    have hrest := ih (by omega) u
    unfold shiftDown at hrest
    rw [wp_bind] at hrest
    refine wp_mono _ _ _ _ _ _ hrest ?_ (fun _ _ h => h)
    intro ok v hv
    refine wp_mono _ _ _ _ _ _ hv ?_ (fun _ _ h => h)
    rintro ok' v' ⟨htrue, harchive, hsink⟩
    exact ⟨htrue, by rw [harchive, hu]; rfl, hsink.trans hs⟩

/-! ## A rotation -/

/-- The files after `k` rotations. -/
structure Stacked (k : ℕ) (a : Archive) : Prop where
  generations : ∀ c, Chain.Configured cfg c → ∀ n, 1 ≤ n → n ≤ depth cfg → (a.slots c n ≠ none ↔ n ≤ k)
  replaced : (∃ c content, Deed.replaced c content ∈ a.trace) ↔ depth cfg < k
  configured : 0 < k → ∃ c, Chain.Configured cfg c
  outside : a.outside = fun _ => none

/-- Chain `c` has been rotated once more, after `k` times. -/
structure Grown (c : Chain) (k : ℕ) (a a' : Archive) : Prop where
  generations : ∀ n, 1 ≤ n → n ≤ depth cfg → (a'.slots c n ≠ none ↔ n ≤ k + 1)
  added : ∃ deeds, a'.trace = a.trace ++ deeds ∧ (∀ deed ∈ deeds, ∃ content, deed = .replaced c content) ∧
    (deeds = [] ↔ k < depth cfg)
  outside : a'.outside = a.outside
  other : ∀ d, d ≠ c → a'.slots d = a.slots d

theorem Opened.stacked {a a' : Archive} {k : ℕ} (h : Opened a a') (hs : Stacked cfg k a) :
    Stacked cfg k a' := by
  refine ⟨?_, by rw [h.trace]; exact hs.replaced, hs.configured, h.outside.trans hs.outside⟩
  intro c hc n hn hle
  rw [h.later c n (by omega)]
  exact hs.generations c hc n hn hle

variable {cfg} in
theorem shift_grown (hzero : cfg.maxFiles = 0) (c : Chain) (a : Archive) (k h : ℕ)
    (hgen : ∀ n, 1 ≤ n → n ≤ depth cfg → (a.slots c n ≠ none ↔ n ≤ k)) (hactive : a.slots c 0 ≠ none)
    (hh : Highest (a.slots c) 1000 h) : Grown cfg c k a (a.shift c h) := by
  have hdepth : depth cfg = 1000 + 1 := if_pos hzero
  have hle := hh.1
  have hhk : h = min k 1000 := by
    have h1 : h ≤ k := by
      rcases hh.2.1 with h0 | hused
      · omega
      · by_cases h0 : h = 0
        · omega
        · exact (hgen h (by omega) (by omega)).mp hused
    have h2 : ¬ (h < k ∧ h < 1000) := by
      rintro ⟨hlt, hlt'⟩
      exact (hgen (h + 1) (by omega) (by omega)).mpr (by omega) (hh.2.2 (h + 1) (by omega) (by omega))
    omega
  have hfull : ∀ m, m ≤ h → a.slots c m ≠ none := by
    intro m hm
    by_cases hm0 : m = 0
    · rw [hm0]
      exact hactive
    · exact (hgen m (by omega) (by omega)).mpr (by omega)
  obtain ⟨htrace, hslots⟩ := shift_full c h a hfull
  obtain ⟨houtside, -, hother⟩ := shift_frame c h a
  refine ⟨?_, ⟨_, htrace, ?_, ?_⟩, houtside, hother⟩
  · intro n hn hnd
    rw [hslots, if_neg (by omega)]
    by_cases hnh : n ≤ h + 1
    · rw [if_pos hnh]
      exact iff_of_true (hfull (n - 1) (by omega)) (by omega)
    · rw [if_neg hnh, hgen n hn hnd]
      omega
  · intro deed hdeed
    obtain ⟨content, -, rfl⟩ := List.mem_map.mp hdeed
    exact ⟨content, rfl⟩
  · have hnext := hgen (h + 1) (by omega) (by omega)
    cases hs : a.slots c (h + 1) with
    | none =>
      rw [hs] at hnext
      have hk : ¬ h + 1 ≤ k := fun hk => hnext.mpr hk rfl
      exact iff_of_true rfl (by omega)
    | some content =>
      rw [hs] at hnext
      have hk : h + 1 ≤ k := hnext.mp (Option.some_ne_none content)
      exact iff_of_false (by simp) (by omega)

include hapart hok in
theorem shiftFiles_fine (hzero : cfg.maxFiles = 0) (c : Chain) (hc : c.Configured cfg) (k : ℕ) (w : World)
    (hgen : ∀ n, 1 ≤ n → n ≤ depth cfg → ((w.archive cfg).slots c n ≠ none ↔ n ≤ k))
    (hactive : (w.archive cfg).slots c 0 ≠ none) :
    wp (shiftFiles cfg retryInterval plan c)
      (fun ok w' => ok = true ∧ w'.sink = w.sink ∧ Grown cfg c k (w.archive cfg) (w'.archive cfg))
      (fun _ _ => False) w := by
  have hlimit : probeLimit cfg = 1000 := if_neg (by omega)
  apply shiftFiles_rule cfg retryInterval plan hapart c hc
  · intro w₁ h hcl
    cases hcl with
    | drop w' content hpos => omega
    | keep h hh hlast =>
      rw [hlimit] at hh
      have hle := hh.1
      have hdepth : depth cfg = 1000 + 1 := if_pos hzero
      refine wp_mono _ _ _ _ _ _ (shiftDown_fine cfg retryInterval plan hapart hok c hc h (by omega) w) ?_
        (fun _ _ hf => hf)
      rintro ok w' ⟨htrue, harchive, hsink⟩
      refine ⟨htrue, hsink, ?_⟩
      rw [harchive]
      exact shift_grown hzero c _ k h hgen hactive hh
  · exact fun hbad => absurd hok hbad
  · exact fun hbad => absurd hok hbad

/-- One chain of a rotation: it has grown, or there is none. -/
def Rolled (c : Chain) (k : ℕ) (a a' : Archive) : Prop :=
  (c.Configured cfg ∧ Grown cfg c k a a') ∨ (¬ c.Configured cfg ∧ a' = a)

include hapart hok in
theorem shiftChain_fine (hzero : cfg.maxFiles = 0) (c : Chain) (k : ℕ) (w : World)
    (hgen : c.Configured cfg → ∀ n, 1 ≤ n → n ≤ depth cfg → ((w.archive cfg).slots c n ≠ none ↔ n ≤ k))
    (hactive : c.Configured cfg → (w.archive cfg).slots c 0 ≠ none) :
    wp (shiftChain cfg retryInterval plan c)
      (fun ok w' => ok = true ∧ w'.sink = w.sink ∧ Rolled cfg c k (w.archive cfg) (w'.archive cfg))
      (fun _ _ => False) w := by
  unfold shiftChain
  by_cases hc : c.file cfg = []
  · rw [if_pos hc]
    exact ⟨rfl, rfl, .inr ⟨fun h => h hc, rfl⟩⟩
  · rw [if_neg hc]
    refine wp_mono _ _ _ _ _ _
      (shiftFiles_fine cfg retryInterval plan hapart hok hzero c hc k w (hgen hc) (hactive hc)) ?_
      (fun _ _ hf => hf)
    rintro ok w' ⟨htrue, hsink, hgrown⟩
    exact ⟨htrue, hsink, .inl ⟨hc, hgrown⟩⟩

variable {cfg} in
theorem Rolled.other {c d : Chain} {k : ℕ} {a a' : Archive} (h : Rolled cfg c k a a') (hd : d ≠ c) :
    a'.slots d = a.slots d := by
  cases h with
  | inl h => exact h.2.other d hd
  | inr h => rw [h.2]

variable {cfg} in
/-- Two chains that have grown are one rotation more. -/
theorem Stacked.next {k : ℕ} {a a₁ a₂ : Archive} (h : Stacked cfg k a) (ht : Rolled cfg .text k a a₁)
    (hj : Rolled cfg .jsonl k a₁ a₂) (hsome : ∃ c, Chain.Configured cfg c) : Stacked cfg (k + 1) a₂ := by
  have hgen : ∀ (c : Chain) (b b' : Archive), Rolled cfg c k b b' → Chain.Configured cfg c →
      ∀ n, 1 ≤ n → n ≤ depth cfg → (b'.slots c n ≠ none ↔ n ≤ k + 1) := by
    intro c b b' hr hc
    cases hr with
    | inl hr => exact hr.2.generations
    | inr hr => exact absurd hc hr.1
  have htrace : ∀ (c : Chain) (b b' : Archive), Rolled cfg c k b b' →
      ∃ deeds, b'.trace = b.trace ++ deeds ∧ (∀ deed ∈ deeds, ∃ content, deed = .replaced c content) ∧
        (deeds = [] ↔ ¬ (Chain.Configured cfg c ∧ depth cfg ≤ k)) := by
    intro c b b' hr
    cases hr with
    | inl hr =>
      obtain ⟨deeds, hadd, hall, hnil⟩ := hr.2.added
      refine ⟨deeds, hadd, hall, hnil.trans ?_⟩
      simp only [hr.1, true_and]
      omega
    | inr hr =>
      refine ⟨[], by rw [hr.2, List.append_nil], fun deed hdeed => (by cases hdeed),
        iff_of_true rfl fun hc => hr.1 hc.1⟩
  obtain ⟨deeds₁, htr₁, hall₁, hnil₁⟩ := htrace .text a a₁ ht
  obtain ⟨deeds₂, htr₂, hall₂, hnil₂⟩ := htrace .jsonl a₁ a₂ hj
  refine ⟨?_, ?_, fun _ => hsome, ?_⟩
  · intro c hc
    cases c with
    | text =>
      have hother : a₂.slots .text = a₁.slots .text := hj.other (by decide)
      rw [hother]
      exact hgen .text a a₁ ht hc
    | jsonl => exact hgen .jsonl a₁ a₂ hj hc
  · have hmem : (∃ c content, Deed.replaced c content ∈ a₂.trace) ↔
        (∃ c content, Deed.replaced c content ∈ a.trace) ∨ deeds₁ ≠ [] ∨ deeds₂ ≠ [] := by
      rw [htr₂, htr₁]
      constructor
      · rintro ⟨c, content, hmem⟩
        simp only [List.mem_append] at hmem
        rcases hmem with (hmem | hmem) | hmem
        · exact .inl ⟨c, content, hmem⟩
        · exact .inr (.inl (List.ne_nil_of_mem hmem))
        · exact .inr (.inr (List.ne_nil_of_mem hmem))
      · rintro (⟨c, content, hmem⟩ | hne | hne)
        · exact ⟨c, content, by simp [hmem]⟩
        · obtain ⟨deed, hdeed⟩ := List.exists_mem_of_ne_nil _ hne
          obtain ⟨content, rfl⟩ := hall₁ deed hdeed
          exact ⟨.text, content, by simp [hdeed]⟩
        · obtain ⟨deed, hdeed⟩ := List.exists_mem_of_ne_nil _ hne
          obtain ⟨content, rfl⟩ := hall₂ deed hdeed
          exact ⟨.jsonl, content, by simp [hdeed]⟩
    obtain ⟨c, hc⟩ := hsome
    rw [hmem, h.replaced, ne_eq, ne_eq, hnil₁, hnil₂, not_not, not_not]
    constructor
    · rintro (hlt | ⟨-, hle⟩ | ⟨-, hle⟩)
      · omega
      · omega
      · omega
    · intro hlt
      cases c with
      | text => exact .inr (.inl ⟨hc, by omega⟩)
      | jsonl => exact .inr (.inr ⟨hc, by omega⟩)
  · have houtside : ∀ (c : Chain) (b b' : Archive), Rolled cfg c k b b' → b'.outside = b.outside := by
      intro c b b' hr
      cases hr with
      | inl hr => exact hr.2.outside
      | inr hr => rw [hr.2]
    rw [houtside .jsonl a₁ a₂ hj, houtside .text a a₁ ht]
    exact h.outside

include hapart hok in
theorem rotate_fine (hzero : cfg.maxFiles = 0) (k : ℕ) (w : World) (harmed : w.sink.retryArmed = false)
    (hready : Ready cfg w) (hsome : ∃ c, Chain.Configured cfg c) (hs : Stacked cfg k (w.archive cfg)) :
    wp (rotate cfg retryInterval plan) (fun _ w' => Stacked cfg (k + 1) (w'.archive cfg))
    (fun _ _ => False) w := by
  have hactive : ∀ c, Chain.Configured cfg c → (w.archive cfg).slots c 0 ≠ none := by
    intro c hc
    obtain ⟨-, -, content, hcontent, -⟩ := (hready c).1 hc
    rw [hcontent]
    exact Option.some_ne_none content
  unfold rotate closeFiles onSink
  rw [wp_bind, wp_modify, wp_bind]
  refine wp_mono _ _ _ _ _ _ (shiftChain_fine cfg retryInterval plan hapart hok hzero .text k _
    (hs.generations .text) (hactive .text)) ?_ (fun _ _ hf => hf)
  rintro ok w₁ ⟨rfl, hsink₁, ht⟩
  rw [if_pos rfl, wp_bind]
  have hjsonl : (w₁.archive cfg).slots .jsonl = (w.archive cfg).slots .jsonl := ht.other (by decide)
  refine wp_mono _ _ _ _ _ _ (shiftChain_fine cfg retryInterval plan hapart hok hzero .jsonl k w₁
    (by rw [hjsonl]; exact hs.generations .jsonl) (by rw [hjsonl]; exact hactive .jsonl)) ?_ (fun _ _ hf => hf)
  rintro ok w₂ ⟨rfl, hsink₂, hj⟩
  rw [if_pos rfl]
  have hidle : Idle w₂.sink := by
    rw [hsink₂, hsink₁]
    exact fun _ => ⟨rfl, rfl⟩
  have harmed₂ : w₂.sink.retryArmed = false := by
    rw [hsink₂, hsink₁]
    exact harmed
  refine wp_mono _ _ _ _ _ _ (openFiles_spec cfg retryInterval plan hapart true w₂ hidle harmed₂) ?_ ?_
  · rintro - w' ⟨hopened, -, -⟩
    exact Opened.stacked cfg hopened (hs.next ht hj hsome)
  · rintro e w' ⟨-, -, -, hbad⟩
    exact hbad hok

/-! ## A message -/

variable {cfg} in
theorem Stacked.put {k : ℕ} {a : Archive} (h : Stacked cfg k a) (c : Chain) (v : Option Bytes) :
    Stacked cfg k (a.put c 0 v) := by
  refine ⟨?_, h.replaced, h.configured, h.outside⟩
  intro d hd n hn hle
  by_cases hdc : d = c
  · rw [hdc, put_slots, Slots.set_other _ _ _ _ (by omega), ← hdc]
    exact h.generations d hd n hn hle
  · rw [put_slots_other c a 0 v d hdc]
    exact h.generations d hd n hn hle

variable {cfg} in
theorem Stacked.wrote {k : ℕ} {a : Archive} (h : Stacked cfg k a) (c : Chain) (line : Bytes) :
    Stacked cfg k (a.add [.wrote c line]) := by
  refine ⟨h.generations, ?_, h.configured, h.outside⟩
  rw [← h.replaced]
  simp [Archive.add]

variable {cfg} in
theorem Appended.stacked {k : ℕ} {c : Chain} {line : Bytes} {done : Bool} {a a' : Archive}
    (h : Appended cfg plan c line a done a') (hs : Stacked cfg k a) : Stacked cfg k a' := by
  cases h with
  | absent hc => exact hs
  | untouched => exact hs
  | torn content hc hold hbad => exact hs.put c _
  | whole content hc hold => exact (hs.wrote c line).put c _

/-- Some active file has reached `max_size`. -/
def dueOnDisk (w : World) : Bool :=
  cfg.maxSize ≠ 0 && [Chain.text, Chain.jsonl].any fun c =>
    c.Configured cfg && decide (cfg.maxSize ≤ ((w.disk (c.file cfg)).getD []).length)

theorem dueOnDisk_iff (w : World) : dueOnDisk cfg w = true ↔ Due cfg (w.archive cfg) := by
  have hchain : ∀ c, cfg.maxSize ≠ 0 →
      ((c.Configured cfg ∧ cfg.maxSize ≤ ((w.disk (c.file cfg)).getD []).length) ↔
        ∃ content, (w.archive cfg).slots c 0 = some content ∧ cfg.maxSize ≤ content.length) := by
    intro c hmax
    constructor
    · rintro ⟨hc, hlen⟩
      have hslot : (w.archive cfg).slots c 0 = w.disk (c.file cfg) := slots_active cfg w.disk c hc
      cases hfile : w.disk (c.file cfg) with
      | none =>
        rw [hfile, Option.getD_none, List.length_nil] at hlen
        omega
      | some content =>
        rw [hfile] at hlen
        exact ⟨content, hslot.trans hfile, hlen⟩
    · rintro ⟨content, hcontent, hlen⟩
      have hc : c.Configured cfg := by
        by_contra hn
        have habsent : (w.archive cfg).slots c 0 = none := slots_absent cfg w.disk c 0 hn
        rw [habsent] at hcontent
        cases hcontent
      have hslot : (w.archive cfg).slots c 0 = w.disk (c.file cfg) := slots_active cfg w.disk c hc
      rw [hslot] at hcontent
      rw [hcontent]
      exact ⟨hc, hlen⟩
  unfold dueOnDisk
  simp only [List.any_cons, List.any_nil, Bool.or_false, Bool.and_eq_true, Bool.or_eq_true, decide_eq_true_eq]
  constructor
  · rintro ⟨hmax, h | h⟩
    · obtain ⟨content, hcontent⟩ := (hchain .text hmax).mp h
      exact ⟨hmax, .text, content, hcontent⟩
    · obtain ⟨content, hcontent⟩ := (hchain .jsonl hmax).mp h
      exact ⟨hmax, .jsonl, content, hcontent⟩
  · rintro ⟨hmax, c, hcontent⟩
    refine ⟨hmax, ?_⟩
    have h := (hchain c hmax).mpr hcontent
    cases c with
    | text => exact .inl h
    | jsonl => exact .inr h

theorem due_configured (a : Archive) (w : World) (ha : a = w.archive cfg) (h : Due cfg a) :
    ∃ c, Chain.Configured cfg c := by
  obtain ⟨-, c, content, hcontent, -⟩ := h
  refine ⟨c, ?_⟩
  by_contra hn
  have habsent : (w.archive cfg).slots c 0 = none := slots_absent cfg w.disk c 0 hn
  rw [ha, habsent] at hcontent
  cases hcontent

variable (serialize : List (Bytes × Option Bytes) → Bytes)

include hapart hok in
/-- A message that is accepted rotates the files once when that is due. -/
theorem doWrite_fine (hzero : cfg.maxFiles = 0) (msg : SyslogMessage) (rcv : Bytes) (k : ℕ) (w : World)
    (hservice : InService w.sink) (hstate : Idle w.sink ∨ Ready cfg w) (haccepts : accepts cfg msg = true)
    (hs : Stacked cfg k (w.archive cfg)) :
    wp (doWrite cfg retryInterval serialize plan msg rcv)
      (fun _ v => Stacked cfg (if dueOnDisk cfg w then k + 1 else k) (v.archive cfg)) (fun _ _ => False) w := by
  have hgo : ¬ (w.sink.closed = true ∨ accepts cfg msg = false) := by
    rw [hservice.1, haccepts]
    simp
  -- the lines change nothing but the active files
  have hline : ∀ (c : Chain) (j : ℕ) (u : World) (Q : Bool → World → Prop), Ready cfg u → InService u.sink →
      Stacked cfg j (u.archive cfg) →
      (∀ u', Ready cfg u' → InService u'.sink → Stacked cfg j (u'.archive cfg) → Q true u') →
      wp (writeChain cfg retryInterval serialize plan c msg rcv) Q (fun _ _ => False) u := by
    intro c j u Q hready hservice hs hQ
    refine wp_mono _ _ _ _ _ _ (writeChain_spec cfg retryInterval serialize plan hapart c msg rcv u hready
      hservice) ?_ ?_
    · rintro ok u' ⟨-, happ, htrue, hfalse⟩
      cases ok with
      | false => exact absurd hok (hfalse rfl).2.2
      | true => exact hQ u' (htrue rfl).1 (htrue rfl).2 (Appended.stacked plan happ hs)
    · rintro e u' ⟨-, -, -, hbad⟩
      exact hbad hok
  have hrest : ∀ u, Ready cfg u → InService u.sink → Opened (w.archive cfg) (u.archive cfg) →
      wp (do rotateIfNeeded cfg retryInterval plan
             reach plan .timestamp
             if ← writeChain cfg retryInterval serialize plan .text msg rcv then
               discard (writeChain cfg retryInterval serialize plan .jsonl msg rcv) : M Unit)
        (fun _ v => Stacked cfg (if dueOnDisk cfg w then k + 1 else k) (v.archive cfg))
          (fun _ _ => False) u := by
    intro u hready hu hopened
    have hlines : ∀ u', Ready cfg u' → InService u'.sink →
        Stacked cfg (if dueOnDisk cfg w then k + 1 else k) (u'.archive cfg) →
        wp (do reach plan .timestamp
               if ← writeChain cfg retryInterval serialize plan .text msg rcv then
                 discard (writeChain cfg retryInterval serialize plan .jsonl msg rcv) : M Unit)
          (fun _ v => Stacked cfg (if dueOnDisk cfg w then k + 1 else k) (v.archive cfg))
            (fun _ _ => False) u' := by
      intro u' hready' hu' hs'
      rw [wp_bind]
      apply reach_rule
      · rw [wp_bind]
        refine hline .text _ u' _ hready' hu' hs' ?_
        intro u₁ hr₁ hs₁ hst₁
        rw [if_pos rfl]
        change wp (writeChain cfg retryInterval serialize plan .jsonl msg rcv >>= fun _ => pure ()) _ _ u₁
        rw [wp_bind]
        exact hline .jsonl _ u₁ _ hr₁ hs₁ hst₁ fun u₂ _ _ hst₂ => hst₂
      · exact fun hbad => absurd (hok _) hbad
    have hdue : (cfg.maxSize ≠ 0 ∧ (cfg.maxSize ≤ u.sink.size .text ∨ cfg.maxSize ≤ u.sink.size .jsonl)) ↔
        dueOnDisk cfg w = true := by
      rw [Ready.due cfg hready, Opened.due cfg hopened, dueOnDisk_iff]
    rw [wp_bind]
    unfold rotateIfNeeded
    simp only [wp_bind, wp_get]
    by_cases hd : dueOnDisk cfg w = true
    · have hsome := due_configured cfg _ w rfl ((dueOnDisk_iff cfg w).mp hd)
      rw [if_pos (hdue.mpr hd)]
      refine wp_mono _ _ _ _ _ _ (wp_and _ _ _ _ _ _ (rotate_spec cfg retryInterval plan hapart u hu.2)
        (rotate_fine cfg retryInterval plan hapart hok hzero k u hu.2 hready hsome
          (Opened.stacked cfg hopened hs))) ?_ ?_
      · rintro - u' ⟨⟨-, hend⟩, hst⟩
        cases hend with
        | inl h =>
          refine hlines u' h.2.1 ⟨h.2.2.1.trans hu.1, h.2.2.2⟩ ?_
          rw [if_pos hd]
          exact hst
        | inr h => exact absurd hok h.2.2.2
      · rintro e u' ⟨-, hf⟩
        exact hf
    · rw [if_neg fun h => hd (hdue.mp h)]
      refine hlines u hready hu ?_
      rw [if_neg hd]
      exact Opened.stacked cfg hopened hs
  unfold doWrite
  simp only [wp_bind, wp_get]
  rw [if_neg hgo]
  cases needOpen_cases cfg w hstate with
  | inl h =>
    simp only [h.1, if_pos, wp_bind]
    refine wp_mono _ _ _ _ _ _ (openFiles_spec cfg retryInterval plan hapart false w h.2 hservice.2) ?_ ?_
    · rintro - u ⟨hopened, -, hend⟩
      cases hend with
      | inl h' => exact hrest u h'.1 ⟨h'.2.1.trans hservice.1, h'.2.2⟩ hopened
      | inr h' => exact absurd hok h'.2.2
    · rintro e u ⟨-, -, -, hbad⟩
      exact hbad hok
  | inr h =>
    simp only [h.1, Bool.false_eq_true, if_false]
    exact hrest w h.2 hservice (Opened.refl _)

end Fine

/-! ## Runs -/

section Runs

variable (cfg : OutputConfig) (retryInterval : ℕ) (serialize : List (Bytes × Option Bytes) → Bytes)

/-- Whether the handler of an event rotates the files. -/
def rotates (w : World) : Event → Bool
  | .write msg _ _ => w.running && !w.sink.closed && accepts cfg msg && dueOnDisk cfg w
  | _ => false

/-- How often a run rotates the files. -/
def rotations : World → List Event → ℕ
  | _, [] => 0
  | w, e :: events =>
    (if rotates cfg w e then 1 else 0) + rotations (step cfg retryInterval serialize w e) events

variable {cfg} (hapart : Apart cfg) (hzero : cfg.maxFiles = 0)

include hapart hzero in
theorem step_stacked (e : Event) (he : e.Fine) (k : ℕ) (w : World) (hs : Sound cfg w)
    (harmed : w.sink.retryArmed = false) (hk : Stacked cfg k (w.archive cfg)) :
    (step cfg retryInterval serialize w e).sink.retryArmed = false ∧
      Stacked cfg (k + if rotates cfg w e then 1 else 0)
      ((step cfg retryInterval serialize w e).archive cfg) := by
  by_cases hidle : w.running = false ∧ e.isStart = false
  · have hstep : step cfg retryInterval serialize w e = w := if_pos hidle
    have hno : rotates cfg w e = false := by
      cases e with
      | write msg rcv plan => simp [rotates, hidle.1]
      | start openNow plan => rfl
      | retry plan => rfl
      | close => rfl
    rw [hstep, hno]
    exact ⟨harmed, hk⟩
  · have hrun : e.isStart = false → w.running = true := by
      intro hstart
      by_contra hr
      exact hidle ⟨by simpa using hr, hstart⟩
    cases e with
    | start openNow plan =>
      obtain ⟨_, v, hv, hopened, -, hlive⟩ :=
        wp_returns _ _ _ _ (start_spec cfg retryInterval serialize hapart plan openNow w)
        fun _ _ h => h.2 he
      rw [step_eq retryInterval _ w v hrun hv]
      exact ⟨(hlive he).2.2, Opened.stacked cfg hopened hk⟩
    | write msg rcv plan =>
      obtain ⟨_, v, hv, -, -, hfine⟩ := wp_returns _ _ _ _
        (write_spec cfg retryInterval serialize hapart plan msg rcv w hs (hrun rfl)) fun _ _ h => h.2 he
      obtain ⟨hyes, hno⟩ := hfine he
      rw [step_eq retryInterval _ w v hrun hv]
      by_cases htakes : Takes cfg w msg
      · obtain ⟨-, hclosed, haccepts⟩ := htakes
        have hstacked := doWrite_fine cfg retryInterval plan hapart he serialize hzero msg rcv k w ⟨hclosed,
          harmed⟩ ((hs (hrun rfl)).2 hclosed) haccepts hk
        have hguarded : wp (handler cfg retryInterval serialize (.write msg rcv plan))
            (fun _ v => Stacked cfg (if dueOnDisk cfg w then k + 1 else k) (v.archive cfg))
            (fun _ _ => False) w := by
          change wp (Effect.handle (doWrite cfg retryInterval serialize plan msg rcv) _) _ _ w
          rw [wp_handle]
          exact wp_mono _ _ _ _ _ _ hstacked (fun _ _ h => h) (fun _ _ hf => hf.elim)
        unfold wp at hguarded
        rw [hv] at hguarded
        refine ⟨(hyes ⟨hrun rfl, hclosed, haccepts⟩).1.2.2, ?_⟩
        have hrotates : rotates cfg w (.write msg rcv plan) = dueOnDisk cfg w := by
          simp [rotates, hrun rfl, hclosed, haccepts]
        rw [hrotates]
        cases hdue : dueOnDisk cfg w with
        | true =>
          rw [hdue] at hguarded
          exact hguarded
        | false =>
          rw [hdue] at hguarded
          exact hguarded
      · have hskip : rotates cfg w (.write msg rcv plan) = false := by
          by_contra h
          simp only [rotates, Bool.not_eq_false, Bool.and_eq_true, Bool.not_eq_true'] at h
          exact htakes ⟨h.1.1.1, h.1.1.2, h.1.2⟩
        rw [hno htakes, hskip]
        exact ⟨harmed, hk⟩
    | retry plan =>
      obtain ⟨_, v, hv, -, -, hsame⟩ := wp_returns _ _ _ _
        (retry_spec cfg retryInterval serialize hapart plan w hs (hrun rfl)) fun _ _ h => by
          have htrue := h.2
          rw [harmed] at htrue
          cases htrue
      rw [step_eq retryInterval _ w v hrun hv, hsame harmed]
      exact ⟨harmed, hk⟩
    | close =>
      obtain ⟨_, v, hv, hopened, -, -, -, hdown⟩ :=
        wp_returns _ _ _ _ (close_spec cfg retryInterval serialize w)
        fun _ _ h => h
      rw [step_eq retryInterval _ w v hrun hv]
      exact ⟨hdown, Opened.stacked cfg hopened hk⟩

theorem blank_stacked : Stacked cfg 0 (blank.archive cfg) := by
  refine ⟨?_, ?_, fun h => by omega, ?_⟩
  · intro c hc n hn hle
    refine iff_of_false ?_ (by omega)
    rw [not_not]
    exact slots_apply cfg blank.disk c n hc hle
  · refine iff_of_false ?_ (by omega)
    rintro ⟨c, content, hmem⟩
    cases hmem
  · funext p
    change outside cfg blank.disk p = none
    unfold outside
    split
    · rfl
    · rfl

include hapart hzero in
theorem run_stacked_from (events : List Event) (hfine : ∀ e ∈ events, e.Fine) (k : ℕ) (w : World)
    (hs : Sound cfg w) (harmed : w.sink.retryArmed = false) (hk : Stacked cfg k (w.archive cfg)) :
    Stacked cfg (k + rotations cfg retryInterval serialize w events)
      ((run cfg retryInterval serialize w events).archive cfg) := by
  induction events generalizing k w with
  | nil => exact hk
  | cons e events ih =>
    obtain ⟨harmed', hk'⟩ := step_stacked retryInterval serialize hapart hzero e
      (hfine e List.mem_cons_self) k w hs harmed hk
    have hs' := (step_cases cfg retryInterval serialize hapart e w hs).1
    have hrest := ih (fun e' he' => hfine e' (List.mem_cons_of_mem e he')) _ _ hs' harmed' hk'
    rw [rotations, ← Nat.add_assoc]
    exact hrest

include hapart hzero in
/-- After a run without faults, the generations are numbered 1, ..., as many as there were rotations, but not
past 1001. -/
theorem run_stacked (events : List Event) (hfine : ∀ e ∈ events, e.Fine) :
    Stacked cfg (rotations cfg retryInterval serialize blank events)
      ((run cfg retryInterval serialize blank events).archive cfg) := by
  have h := run_stacked_from retryInterval serialize hapart hzero events hfine 0 blank
    (fun hrun => by cases hrun) rfl blank_stacked
  rwa [Nat.zero_add] at h

/-! ## A run of any length -/

/-- The line of a message is in the active file when its handler returns. -/
theorem Written.active_jsonl {plan : Plan} {msg : SyslogMessage} {rcv : Bytes} {w v : World}
    (h : Written cfg serialize plan msg rcv w v true) (hc : Chain.Configured cfg .jsonl) :
    ∃ content, v.disk cfg.jsonlFile = some (content ++ Chain.line serialize .jsonl msg rcv) := by
  generalize hdone : true = done at h
  cases h with
  | stopped hp => cases hdone
  | wrote w₁ a₂ text jsonl hp hready ht hj =>
    obtain ⟨rfl, rfl⟩ : text = true ∧ jsonl = true := by simpa using hdone.symm
    have hslot : (v.archive cfg).slots .jsonl 0 = v.disk cfg.jsonlFile := slots_active cfg v.disk .jsonl hc
    rw [← hslot]
    generalize v.archive cfg = a at hj
    generalize htrue : true = done at hj
    cases hj with
    | absent hno => exact absurd hc hno
    | whole content _ _ => exact ⟨content, by rw [put_slots, Slots.set_same]⟩
    | untouched => cases htrue
    | torn content _ _ _ => cases htrue

/-- One message after another, each of them on a file that is full. -/
theorem rotations_repeat (hapart : Apart cfg) (hc : Chain.Configured cfg .jsonl) (msg : SyslogMessage)
    (rcv : Bytes) (plan : Plan) (hok : plan.AllOk) (haccepts : accepts cfg msg = true)
    (hmax : cfg.maxSize ≠ 0) (hline : cfg.maxSize ≤ (Chain.line serialize .jsonl msg rcv).length) (n : ℕ)
    (w : World) (hs : Sound cfg w) (hlive : Live w) :
    rotations cfg retryInterval serialize w (List.replicate (n + 1) (.write msg rcv plan)) =
      n + if dueOnDisk cfg w then 1 else 0 := by
  have hrotates : ∀ u, Live u → rotates cfg u (.write msg rcv plan) = dueOnDisk cfg u := by
    intro u hu
    simp [rotates, hu.1, hu.2.1, haccepts]
  have hnext : ∀ u, Sound cfg u → Live u →
      Live (step cfg retryInterval serialize u (.write msg rcv plan)) ∧
        dueOnDisk cfg (step cfg retryInterval serialize u (.write msg rcv plan)) = true := by
    intro u hsu hu
    obtain ⟨_, v, hv, -, -, hfine⟩ := wp_returns _ _ _ _
      (write_spec cfg retryInterval serialize hapart plan msg rcv u hsu hu.1) fun _ _ h => h.2 hok
    obtain ⟨hlv, hwritten⟩ := (hfine hok).1 ⟨hu.1, hu.2.1, haccepts⟩
    obtain ⟨content, hcontent⟩ := hwritten.active_jsonl serialize hc
    rw [step_eq retryInterval _ u v (fun _ => hu.1) hv]
    refine ⟨hlv, ?_⟩
    have hfile : v.disk (Chain.file cfg .jsonl) = some (content ++ Chain.line serialize .jsonl msg rcv) :=
      hcontent
    have hlen : cfg.maxSize ≤ ((v.disk (Chain.file cfg .jsonl)).getD []).length := by
      rw [hfile, Option.getD_some, List.length_append]
      omega
    unfold dueOnDisk
    simp [hmax, hc, hlen]
  induction n generalizing w with
  | zero => simp [rotations, hrotates w hlive]
  | succ n ih =>
    obtain ⟨hlive', hdue'⟩ := hnext w hs hlive
    have hs' := (step_cases cfg retryInterval serialize hapart (.write msg rcv plan) w hs).1
    have hrest := ih _ hs' hlive'
    rw [hdue', if_pos rfl] at hrest
    rw [List.replicate_succ, rotations, hrest, hrotates w hlive]
    omega

end Runs

/-- A sink with a jsonl file that is full after one line, and keeps all generations. -/
def keepAll : OutputConfig := { name := ascii "main", jsonlFile := ascii "/d/a.jsonl", maxSize := 1, maxFiles := 0 }

theorem apart_keepAll : Apart keepAll := fun h => absurd rfl h

theorem separated_keepAll : Separated keepAll where
  normalised c hc := by
    cases c with
    | text => exact absurd rfl hc
    | jsonl => decide +kernel
  apart := apart_keepAll

/-- `n` rotations. -/
def keepAllEvents (n : ℕ) : List Event := .start true .fine :: List.replicate (n + 1) (sample "abcd")

theorem keepAllEvents_fine (n : ℕ) : ∀ e ∈ keepAllEvents n, e.Fine := by
  intro e he
  rcases List.mem_cons.mp he with rfl | he
  · exact fun _ => rfl
  · rw [List.eq_of_mem_replicate he]
    exact fun _ => rfl

theorem rotations_keepAll (n : ℕ) :
    rotations keepAll SinkRecovery.kRetryInterval jsonText blank (keepAllEvents n) = n := by
  obtain ⟨_, v, hv, -, hs, hlive⟩ := wp_returns _ _ _ _
    (start_spec keepAll SinkRecovery.kRetryInterval jsonText apart_keepAll .fine true blank) fun _ _ h =>
    h.2 fun _ => rfl
  have hstep : step keepAll SinkRecovery.kRetryInterval jsonText blank (.start true .fine) = v :=
    step_eq SinkRecovery.kRetryInterval _ blank v (fun h => by cases h) hv
  have hline : keepAll.maxSize ≤ (Chain.line jsonText .jsonl { raw := ascii "abcd" } []).length := by
    have hmax : keepAll.maxSize = 1 := rfl
    rw [hmax, Chain.line, List.length_append, List.length_singleton]
    omega
  have hempty : dueOnDisk keepAll (step keepAll SinkRecovery.kRetryInterval jsonText blank
      (.start true .fine)) = false := by
    decide +kernel
  rw [hstep] at hempty
  have h := rotations_repeat SinkRecovery.kRetryInterval jsonText apart_keepAll (by decide)
    { raw := ascii "abcd" } [] .fine (fun _ => rfl) rfl (by decide) hline n v hs (hlive fun _ => rfl)
  rw [hempty] at h
  change 0 + rotations keepAll SinkRecovery.kRetryInterval jsonText
    (step keepAll SinkRecovery.kRetryInterval jsonText blank (.start true .fine)) _ = n
  rw [hstep, Nat.zero_add]
  exact h

/-- Its files after `n` rotations. -/
def keepAllWorld (n : ℕ) : World := run keepAll SinkRecovery.kRetryInterval jsonText blank (keepAllEvents n)

theorem keepAllWorld_stacked (n : ℕ) : Stacked keepAll n ((keepAllWorld n).archive keepAll) := by
  have h := run_stacked SinkRecovery.kRetryInterval jsonText apart_keepAll rfl (keepAllEvents n)
    (keepAllEvents_fine n)
  rwa [rotations_keepAll] at h

end Minilog.Output
