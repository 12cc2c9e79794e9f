import Minilog.Output.Rotation

/-! Generations without gaps.

`Filled cfg s k` says that the generations of a chain are 1, ..., `k`, none of them empty. A rotation keeps it
(with one generation more, up to `max_files`) as long as no fault comes between the first rename and the last
one; it removes a file only from a chain of `max_files` generations. -/
namespace Minilog.Output
open Lib Lib.Effect
open Minilog.Parser Minilog.Server
set_option autoImplicit false

def Filled (cfg : OutputConfig) (s : Slots Bytes) (k : ℕ) : Prop :=
  k ≤ cfg.maxFiles ∧ (∀ n, 1 ≤ n → n ≤ k → ∃ b, s n = some b ∧ b ≠ []) ∧ ∀ n, k < n → s n = none

/-- If the highest generation that is moved, `t`, is moved without a fault, so are all files below it. -/
def Steady (cfg : OutputConfig) (plan : Plan) (s : Slots Bytes) (c : Chain) : Prop :=
  ∀ t, 1 ≤ t → t < cfg.maxFiles → s t ≠ none → (∀ m, t < m → m < cfg.maxFiles → s m = none) →
    plan.Ok (.probeShift c t) → plan.Ok (.rename c t) → ∀ m, m < t → plan.Ok (.probeShift c m) ∧
    plan.Ok (.rename c m)

theorem steady_of_allOk (cfg : OutputConfig) (plan : Plan) (s : Slots Bytes) (c : Chain) (h : plan.AllOk) :
    Steady cfg plan s c := fun _ _ _ _ _ _ _ _ _ => ⟨h _, h _⟩

section Filled

variable {cfg : OutputConfig} {s : Slots Bytes} {k : ℕ}

theorem Filled.used (h : Filled cfg s k) (n : ℕ) (hn : 1 ≤ n) (hk : n ≤ k) : s n ≠ none := by
  obtain ⟨b, hb, -⟩ := h.2.1 n hn hk
  rw [hb]
  exact Option.some_ne_none b

theorem Filled.highest (h : Filled cfg s k) (m : ℕ) (hm : Highest s cfg.maxFiles m) : m = k := by
  have hle : ¬ m < k := fun hlt => h.used k (by omega) (by omega) (hm.2.2 k hlt h.1)
  have hge : ¬ k < m := fun hlt => (hm.2.1.resolve_left (by omega)) (h.2.2 m hlt)
  omega

theorem Filled.unique {k' : ℕ} (h : Filled cfg s k) (h' : Filled cfg s k') : k' = k := by
  by_contra hne
  have hlt : k' < k ∨ k < k' := by omega
  cases hlt with
  | inl hk => exact h.used k (by omega) (by omega) (h'.2.2 k hk)
  | inr hk => exact h'.used k' (by omega) (by omega) (h.2.2 k' hk)

/-- The active file does not count. -/
theorem Filled.congr {t : Slots Bytes} (h : Filled cfg s k) (hst : ∀ n, n ≠ 0 → t n = s n) :
    Filled cfg t k := by
  refine ⟨h.1, ?_, ?_⟩
  · intro n hn hk
    rw [hst n (by omega)]
    exact h.2.1 n hn hk
  · intro n hn
    rw [hst n (by omega)]
    exact h.2.2 n hn

/-- The last generation is missing. -/
theorem Filled.drop (h : Filled cfg s k) (hk : 0 < k) : Filled cfg (s.set k none) (k - 1) := by
  have hle := h.1
  refine ⟨by omega, ?_, ?_⟩
  · intro n hn hn'
    rw [Slots.set_other _ _ _ _ (by omega)]
    exact h.2.1 n hn (by omega)
  · intro n hn
    by_cases hnk : n = k
    · rw [hnk, Slots.set_same]
    · rw [Slots.set_other _ _ _ _ hnk]
      exact h.2.2 n (by omega)

/-- All files have moved. -/
theorem Filled.moves (h : Filled cfg s k) (hk : k < cfg.maxFiles) (hactive : ∃ b, s 0 = some b ∧ b ≠ []) :
    Filled cfg (s.moves k (k + 1)) (k + 1) ∧ s.moves k (k + 1) 0 = none := by
  have happly : ∀ n, s.moves k (k + 1) n = if n = 0 then none else if n ≤ k + 1 then s (n - 1) else s n := by
    intro n
    rw [Slots.moves_apply s k (k + 1) n (h.2.2 _ (by omega)) (by omega), if_neg (by omega)]
    by_cases hn : n = 0
    · rw [if_pos (by omega), if_pos hn]
    · rw [if_neg (by omega), if_neg hn]
  refine ⟨⟨by omega, ?_, ?_⟩, ?_⟩
  · intro n hn hn'
    rw [happly, if_neg (by omega), if_pos hn']
    by_cases hone : n = 1
    · rw [hone]
      exact hactive
    · exact h.2.1 (n - 1) (by omega) (by omega)
  · intro n hn
    rw [happly, if_neg (by omega), if_neg (by omega)]
    exact h.2.2 n (by omega)
  · rw [happly, if_pos rfl]

end Filled

section Shift

variable {cfg : OutputConfig} (retryInterval : ℕ) (plan : Plan) (hapart : Apart cfg) {c : Chain}
  (hc : c.Configured cfg)

include hapart hc in
theorem shiftUp_steady (n : ℕ) (hn : n + 1 ≤ depth cfg) (w : World)
    (hfree : (w.archive cfg).slots c (n + 1) = none)
    (hok : ∀ m, m ≤ n → plan.Ok (.probeShift c m) ∧ plan.Ok (.rename c m)) :
    wp (shiftUp cfg retryInterval plan c n)
      (fun ok w' => ok = true ∧ (w'.archive cfg).slots c = ((w.archive cfg).slots c).moves n n ∧
        w'.trace = w.trace) (fun _ _ => False) w := by
  induction n generalizing w with
  | zero => exact ⟨rfl, rfl, rfl⟩
  | succ n ih =>
    unfold shiftUp
    rw [wp_bind]
    apply shiftOne_rule cfg retryInterval plan hapart c hc (n + 1) hn
    · intro _ w₁ hmove _
      have hslots : (w₁.archive cfg).slots c = ((w.archive cfg).slots c).move (n + 1) := by
        rw [hmove, move_slots]
      have htrace : w₁.trace = w.trace := by
        have ht := move_trace c _ _ hfree
        rw [← hmove] at ht
        exact ht
      have hnext : (w₁.archive cfg).slots c (n + 1) = none := by
        rw [hslots, Slots.move_apply _ _ _ hfree, if_pos rfl]
      refine wp_mono _ _ _ _ _ _ (ih (by omega) w₁ hnext fun m hm => hok m (by omega)) ?_ (fun _ _ h => h)
      rintro ok w' ⟨ht, hmoves, htrace'⟩
      refine ⟨ht, ?_, htrace'.trans htrace⟩
      rw [hmoves, hslots, Slots.moves_succ]
    · intro hbad
      exact absurd (hok (n + 1) (Nat.le_refl _)) hbad
    · intro hbad
      exact absurd (hok (n + 1) (Nat.le_refl _)) hbad

/-- The files of the chain are where they were. -/
def Still (cfg : OutputConfig) (c : Chain) (w w' : World) : Prop :=
  (w'.archive cfg).slots c = (w.archive cfg).slots c ∧ w'.trace = w.trace

theorem Quiet.still {w w' : World} (h : Quiet w w') : Still cfg c w w' :=
  ⟨by rw [h.archive cfg], h.trace⟩

include hapart hc in
/-- Without a fault between two renames, all files move or none does. -/
theorem shiftDown_steady (h : ℕ) (hh : h + 1 ≤ depth cfg) (w : World)
    (hfree : (w.archive cfg).slots c (h + 1) = none) (hused : h = 0 ∨ (w.archive cfg).slots c h ≠ none)
    (hsteady : 1 ≤ h → plan.Ok (.probeShift c h) → plan.Ok (.rename c h) →
      ∀ m, m < h → plan.Ok (.probeShift c m) ∧ plan.Ok (.rename c m)) :
    wp (shiftDown cfg retryInterval plan c h)
      (fun ok w' => if ok then (w'.archive cfg).slots c = ((w.archive cfg).slots c).moves h (h + 1) ∧
        w'.trace = w.trace
          else Still cfg c w w')
      (fun _ w' => Still cfg c w w') w := by
  unfold shiftDown
  rw [wp_bind]
  cases h with
  | zero =>
    change wp (shiftOne cfg retryInterval plan c 0) _ _ w
    apply shiftOne_rule cfg retryInterval plan hapart c hc 0 hh
    · intro _ w' hmove _
      have ht := move_trace c _ _ hfree
      rw [← hmove] at ht
      exact ⟨by rw [hmove, move_slots]; rfl, ht⟩
    · intro _ w' hq _
      exact hq.still
    · intro _ _ w' hq
      exact hq.still
  | succ h =>
    unfold shiftUp
    rw [wp_bind]
    apply shiftOne_rule cfg retryInterval plan hapart c hc (h + 1) hh
    · intro hcalls w₁ hmove _
      have hbelow := hsteady (by omega) hcalls.1 (hcalls.2 (hused.resolve_left (by omega)))
      have hslots : (w₁.archive cfg).slots c = ((w.archive cfg).slots c).move (h + 1) := by
        rw [hmove, move_slots]
      have htrace : w₁.trace = w.trace := by
        have ht := move_trace c _ _ hfree
        rw [← hmove] at ht
        exact ht
      have hnext : (w₁.archive cfg).slots c (h + 1) = none := by
        rw [hslots, Slots.move_apply _ _ _ hfree, if_pos rfl]
      refine wp_mono _ _ _ _ _ _
        (shiftUp_steady retryInterval plan hapart hc h (by omega) w₁ hnext fun m hm => hbelow m (by omega)) ?_
        (fun _ _ hf => hf.elim)
      rintro ok w₂ ⟨rfl, hmoves, htrace₂⟩
      rw [hslots, Slots.moves_succ] at hmoves
      rw [if_pos rfl]
      have hone : (w₂.archive cfg).slots c (0 + 1) = none := by
        rw [hmoves, Slots.moves_apply _ _ _ _ hfree (by omega), if_neg (by omega), if_pos (by omega)]
      apply shiftOne_rule cfg retryInterval plan hapart c hc 0 (by omega)
      · intro _ w' hmove' _
        have ht := move_trace c _ _ hone
        rw [← hmove'] at ht
        refine ⟨?_, ht.trans (htrace₂.trans htrace)⟩
        rw [hmove', move_slots, hmoves, Slots.moves.eq_2 _ (h + 1) (h + 1), Nat.sub_self]
      · intro hbad
        exact absurd (hbelow 0 (by omega)) hbad
      · intro hbad
        exact absurd (hbelow 0 (by omega)) hbad
    · intro _ w' hq _
      exact hq.still
    · intro _ _ w' hq
      exact hq.still

/-- What a rotation may add to the trace: the removal of the last of `max_files` generations. -/
def Dropped (cfg : OutputConfig) (c : Chain) (k : ℕ) (w w' : World) : Prop :=
  w'.trace = w.trace ∨ ∃ content, k = cfg.maxFiles ∧
    w'.trace = w.trace ++ [.removed c cfg.maxFiles content w.disk]

include hapart hc in
theorem shiftFiles_filled (w : World) (k : ℕ) (hpos : 0 < cfg.maxFiles)
    (hfilled : Filled cfg ((w.archive cfg).slots c) k) (hactive : ∃ b, (w.archive cfg).slots c 0 = some b ∧
      b ≠ []) (hsteady : Steady cfg plan ((w.archive cfg).slots c) c) :
    wp (shiftFiles cfg retryInterval plan c)
      (fun ok w' => (∃ k', Filled cfg ((w'.archive cfg).slots c) k' ∧
        (ok = true → k' = min (k + 1) cfg.maxFiles)) ∧
          Dropped cfg c k w w')
      (fun _ w' => (∃ k', Filled cfg ((w'.archive cfg).slots c) k') ∧ Dropped cfg c k w w') w := by
  have hdepth := depth_pos cfg hpos
  apply shiftFiles_rule cfg retryInterval plan hapart c hc
  · intro w₁ h hcl
    -- the generations of `w₁` are 1, ..., `h`
    have hroom : Filled cfg ((w₁.archive cfg).slots c) h ∧ h = min k (cfg.maxFiles - 1) ∧ Dropped cfg c k w w₁ ∧
        (w₁.archive cfg).slots c 0 = (w.archive cfg).slots c 0 := by
      cases hcl with
      | keep h hh hlast =>
        rw [probeLimit_pos cfg hpos] at hh
        have hhk := hfilled.highest h hh
        have hlt := hlast hpos
        exact ⟨hhk ▸ hfilled, by omega, .inl rfl, rfl⟩
      | drop w' content hpos hold hsink harchive =>
        have hk : k = cfg.maxFiles := by
          have hle := hfilled.1
          by_contra hne
          have hnone := hfilled.2.2 cfg.maxFiles (by omega)
          rw [show (w.archive cfg).slots c cfg.maxFiles = some content from hold] at hnone
          cases hnone
        have hslots : (w₁.archive cfg).slots c = ((w.archive cfg).slots c).set cfg.maxFiles none := by
          rw [harchive, put_slots]
          rfl
        have htrace := congrArg Archive.trace harchive
        refine ⟨?_, by omega, .inr ⟨content, hk, htrace⟩, by rw [hslots, Slots.set_other _ _ _ _ (by omega)]⟩
        rw [hslots, ← hk]
        exact hfilled.drop (by omega)
    obtain ⟨hfilled₁, hh, hdropped, hzero⟩ := hroom
    have hle := hfilled.1
    refine wp_mono _ _ _ _ _ _ (shiftDown_steady retryInterval plan hapart hc h (by omega) w₁
      (hfilled₁.2.2 _ (by omega)) ?_ ?_) ?_ ?_
    · by_cases h0 : h = 0
      · exact .inl h0
      · exact .inr (hfilled₁.used h (by omega) (by omega))
    · intro hge hprobe hrename
      refine hsteady h hge (by omega) (hfilled.used h hge (by omega)) ?_ hprobe hrename
      intro m hm hm'
      exact hfilled.2.2 m (by omega)
    · rintro ok w' hend
      cases ok with
      | false =>
        obtain ⟨hslots, htrace⟩ := hend
        refine ⟨⟨h, hslots ▸ hfilled₁, fun hf => by cases hf⟩, ?_⟩
        unfold Dropped
        rw [htrace]
        exact hdropped
      | true =>
        obtain ⟨hslots, htrace⟩ := hend
        refine ⟨⟨h + 1, ?_, fun _ => by omega⟩, ?_⟩
        · rw [hslots]
          exact (hfilled₁.moves (by omega) (hzero ▸ hactive)).1
        · unfold Dropped
          rw [htrace]
          exact hdropped
    · rintro _ w' ⟨hslots, htrace⟩
      refine ⟨⟨h, hslots ▸ hfilled₁⟩, ?_⟩
      unfold Dropped
      rw [htrace]
      exact hdropped
  · intro _ w' hq _
    refine ⟨⟨k, ?_, fun hf => by cases hf⟩, .inl hq.trace⟩
    rw [hq.archive cfg]
    exact hfilled
  · intro _ _ w' hq
    refine ⟨⟨k, ?_⟩, .inl hq.trace⟩
    rw [hq.archive cfg]
    exact hfilled

end Shift

end Minilog.Output
