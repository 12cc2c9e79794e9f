import Mathlib.Data.List.Induction
import Mathlib.Data.List.Basic
import Minilog.Lib.Transition
import Minilog.Output.LogFile

/-! Outages over whole runs (`output/sink_recovery.hpp`).

The replies are the results of a sequence of `onFailure` and `onRecovered` calls. An outage is read off them:
the failures since the last recovery, with their times and decisions. `Counts` connects the four fields of a
`SinkRecovery` with it; what is counted is exact up to an outage of `most` failures, if that is how far `next`
counts. -/
namespace Minilog.Output.SinkRecovery
open Lib
set_option autoImplicit false

inductive Event where
  | failure (now : ℕ)
  | recovered (now : ℕ)

def Event.now : Event → ℕ
  | .failure now | .recovered now => now

/-- What a call returned. -/
inductive Reply where
  | failure (now : ℕ) (decision : Decision)
  | recovered (now : ℕ) (ended : Outage)

/-- The failures since the last recovery. -/
def failuresOf (es : List Event) : ℕ :=
  es.foldl (fun n e => match e with | .failure _ => n + 1 | .recovered _ => 0) 0

def call (next : ℕ → ℕ) (r : SinkRecovery) : Event → Reply × SinkRecovery
  | .failure now => (.failure now (r.onFailureBy next now).1, (r.onFailureBy next now).2)
  | .recovered now => (.recovered now (r.onRecovered now).1, (r.onRecovered now).2)

/-! ## What the replies say -/

/-- A failure of an outage: when it was, and what was decided. -/
abbrev Failure := ℕ × Decision

/-- The failures since the last recovery. -/
def outage (rs : List Reply) : List Failure :=
  rs.foldl (fun fs r => match r with | .failure now d => fs ++ [(now, d)] | .recovered .. => []) []

def reports (fs : List Failure) : List Failure := fs.filter fun f => f.2.report

/-- What the reports after the first sum up. -/
def summarised (fs : List Failure) : ℕ := ((reports fs).tail.map fun f => f.2.suppressed).sum

/-- The failures since the last report. -/
def untold (fs : List Failure) : ℕ := (fs.reverse.takeWhile fun f => !f.2.report).length

/-- The time of the first failure. -/
def began (fs : List Failure) : ℕ := fs.head?.elim 0 Prod.fst

section Snoc

variable (es : List Event) (rs : List Reply) (fs : List Failure) (now : ℕ) (d : Decision) (ended : Outage)

@[simp] theorem failuresOf_failure : failuresOf (es ++ [.failure now]) = failuresOf es + 1 := List.foldl_append

@[simp] theorem failuresOf_recovered : failuresOf (es ++ [.recovered now]) = 0 := List.foldl_append

@[simp] theorem outage_failure : outage (rs ++ [.failure now d]) = outage rs ++ [(now, d)] := List.foldl_append

@[simp] theorem outage_recovered : outage (rs ++ [.recovered now ended]) = [] := List.foldl_append

@[simp] theorem reports_silent (h : d.report = false) : reports (fs ++ [(now, d)]) = reports fs := by
  rw [reports, List.filter_append, List.filter_cons_of_neg (by simp [h])]
  exact List.append_nil _

@[simp] theorem reports_report (h : d.report = true) :
    reports (fs ++ [(now, d)]) = reports fs ++ [(now, d)] := by
  rw [reports, List.filter_append, List.filter_cons_of_pos (by simp [h])]
  rfl

@[simp] theorem untold_silent (h : d.report = false) : untold (fs ++ [(now, d)]) = untold fs + 1 := by
  rw [untold, List.reverse_append, List.reverse_singleton, List.singleton_append,
    List.takeWhile_cons_of_pos (by simp [h])]
  rfl

@[simp] theorem untold_report (h : d.report = true) : untold (fs ++ [(now, d)]) = 0 := by
  rw [untold, List.reverse_append, List.reverse_singleton, List.singleton_append,
    List.takeWhile_cons_of_neg (by simp [h])]
  rfl

theorem summarised_silent (h : d.report = false) : summarised (fs ++ [(now, d)]) = summarised fs := by
  rw [summarised, reports_silent fs now d h, summarised]

theorem summarised_report (h : d.report = true) (hfs : reports fs ≠ []) :
    summarised (fs ++ [(now, d)]) = summarised fs + d.suppressed := by
  rw [summarised, reports_report fs now d h, List.tail_append_of_ne_nil hfs, List.map_append,
    List.sum_append, summarised]
  rfl

/-- The first failure of an outage stays the first. -/
theorem began_snoc (f : Failure) (h : fs ≠ []) : began (fs ++ [f]) = began fs := by
  rw [began, List.head?_append_of_ne_nil _ h]
  rfl

end Snoc

/-! ## The state is what the replies say -/

structure Counts (rs : List Reply) (r : SinkRecovery) : Prop where
  failures : r.failures = (outage rs).length
  unreported : r.unreported = untold (outage rs)
  since : outage rs ≠ [] → r.closedSince = began (outage rs)
  last : ∀ f ∈ (reports (outage rs)).getLast?, r.lastReport = f.1
  told : outage rs ≠ [] → reports (outage rs) ≠ []
  complete : outage rs ≠ [] → (outage rs).length = 1 + summarised (outage rs) + untold (outage rs)
  spaced : (reports (outage rs)).Pairwise fun f g => f.1 + kReportInterval ≤ g.1

/-- With no outage, only the two counters matter. -/
theorem counts_open (rs : List Reply) (r : SinkRecovery) (h : outage rs = []) (hfailures : r.failures = 0)
    (hunreported : r.unreported = 0) : Counts rs r := by
  refine ⟨?_, ?_, fun hclosed => absurd h hclosed, fun f hf => ?_, fun hclosed => absurd h hclosed,
    fun hclosed => absurd h hclosed, ?_⟩
  · rw [h, hfailures]
    rfl
  · rw [h, hunreported]
    rfl
  · rw [h] at hf
    cases hf
  · rw [h]
    exact List.Pairwise.nil

/-- What a call answers after these replies. -/
def Answered (pre : List Reply) : Reply → Prop
  | .failure _ d =>
    (d.firstFailure = true ↔ outage pre = []) ∧
      (outage pre = [] → d.report = true ∧ d.suppressed = 0 ∧ d.closedFor = 0)
  | .recovered now ended =>
    ended.failures = (outage pre).length ∧ ended.closedFor = if outage pre = [] then 0
      else (now - began (outage pre)) / 10 ^ 9

section Failure

variable (next : ℕ → ℕ) (r : SinkRecovery) (now : ℕ)

/-- The failure that closes the sink. -/
theorem onFailureBy_first (h : r.failures = 0) : r.onFailureBy next now =
    (⟨true, true, 0, 0⟩, ⟨1, r.unreported, now, now⟩) := by
  rw [onFailureBy, if_pos h]

/-- A failed attempt that is reported. -/
theorem onFailureBy_due (h : r.failures ≠ 0) (hdue : kReportInterval ≤ now - r.lastReport) :
    r.onFailureBy next now = (⟨true, false, next r.unreported, (now - r.closedSince) / 10 ^ 9⟩,
      ⟨next r.failures, 0, r.closedSince, now⟩) := by
  rw [onFailureBy, if_neg h]
  dsimp only
  rw [if_pos hdue]

/-- A failed attempt that is only counted. -/
theorem onFailureBy_early (h : r.failures ≠ 0) (hearly : ¬ kReportInterval ≤ now - r.lastReport) :
    r.onFailureBy next now = (⟨false, false, 0, 0⟩, ⟨next r.failures, next r.unreported, r.closedSince,
      r.lastReport⟩) := by
  rw [onFailureBy, if_neg h]
  dsimp only
  rw [if_neg hearly]

end Failure

section Counts

variable {rs : List Reply} {r : SinkRecovery}

theorem Counts.open_iff (h : Counts rs r) : r.failures = 0 ↔ outage rs = [] := by
  rw [h.failures, List.length_eq_zero_iff]

theorem counts_first (next : ℕ → ℕ) (now : ℕ) (h : Counts rs r) (hopen : outage rs = []) :
    Answered rs (.failure now (r.onFailureBy next now).1) ∧
      Counts (rs ++ [.failure now (r.onFailureBy next now).1]) (r.onFailureBy next now).2 := by
  rw [onFailureBy_first next r now (h.open_iff.mpr hopen)]
  have hone : outage (rs ++ [.failure now ⟨true, true, 0, 0⟩]) = [(now, ⟨true, true, 0, 0⟩)] := by
    rw [outage_failure, hopen, List.nil_append]
  refine ⟨⟨iff_of_true rfl hopen, fun _ => ⟨rfl, rfl, rfl⟩⟩,
    ⟨?_, ?_, fun _ => ?_, fun f hf => ?_, fun _ => ?_, fun _ => ?_, ?_⟩⟩
  · rw [hone]
    rfl
  · -- nothing is carried over: the counter was left at 0
    rw [hone]
    have hleft := h.unreported
    rw [hopen] at hleft
    exact hleft
  · rw [hone]
    rfl
  · rw [hone] at hf
    cases hf
    rfl
  · rw [hone]
    exact List.cons_ne_nil _ _
  · rw [hone]
    rfl
  · rw [hone]
    exact List.pairwise_singleton _ _

/-- A failure while the sink is closed, before the counters can run over. -/
theorem counts_again (next : ℕ → ℕ) (most : ℕ) (hnext : ∀ n < most, next n = n + 1) (now : ℕ) (h : Counts rs r)
    (hclosed : outage rs ≠ []) (hmost : (outage rs).length < most) :
    Answered rs (.failure now (r.onFailureBy next now).1) ∧
      Counts (rs ++ [.failure now (r.onFailureBy next now).1]) (r.onFailureBy next now).2 := by
  have hne : r.failures ≠ 0 := fun hzero => hclosed (h.open_iff.mp hzero)
  have hcomplete := h.complete hclosed
  have hreports := h.told hclosed
  have hfailures : next r.failures = (outage rs).length + 1 := by rw [h.failures, hnext _ hmost]
  have hunreported : next r.unreported = untold (outage rs) + 1 := by rw [h.unreported, hnext _ (by omega)]
  by_cases hdue : kReportInterval ≤ now - r.lastReport
  · rw [onFailureBy_due next r now hne hdue, hfailures, hunreported]
    refine ⟨⟨iff_of_false Bool.false_ne_true hclosed, fun hopen => absurd hopen hclosed⟩,
      ⟨?_, ?_, fun _ => ?_, fun f hf => ?_, fun _ => ?_, fun _ => ?_, ?_⟩⟩
    · rw [outage_failure, List.length_append]
      rfl
    · rw [outage_failure, untold_report _ _ _ rfl]
    · rw [outage_failure, began_snoc _ _ hclosed]
      exact h.since hclosed
    · rw [outage_failure, reports_report _ _ _ rfl, List.getLast?_concat] at hf
      cases hf
      rfl
    · rw [outage_failure, reports_report _ _ _ rfl]
      exact List.append_ne_nil_of_right_ne_nil _ (List.cons_ne_nil _ _)
    · rw [outage_failure, untold_report _ _ _ rfl, summarised_report _ _ _ rfl hreports, List.length_append,
        List.length_singleton]
      dsimp only
      omega
    · rw [outage_failure, reports_report _ _ _ rfl]
      refine pairwise_snoc _ (fun f g k hfg hgk => by omega) _ _ h.spaced fun f hf => ?_
      have hpos : 0 < kReportInterval := by decide
      rw [h.last f hf] at hdue
      dsimp only
      omega
  · rw [onFailureBy_early next r now hne hdue, hfailures, hunreported]
    refine ⟨⟨iff_of_false Bool.false_ne_true hclosed, fun hopen => absurd hopen hclosed⟩,
      ⟨?_, ?_, fun _ => ?_, fun f hf => ?_, fun _ => ?_, fun _ => ?_, ?_⟩⟩
    · rw [outage_failure, List.length_append]
      rfl
    · rw [outage_failure, untold_silent _ _ _ rfl]
    · rw [outage_failure, began_snoc _ _ hclosed]
      exact h.since hclosed
    · rw [outage_failure, reports_silent _ _ _ rfl] at hf
      exact h.last f hf
    · rw [outage_failure, reports_silent _ _ _ rfl]
      exact hreports
    · rw [outage_failure, untold_silent _ _ _ rfl, summarised_silent _ _ _ rfl, List.length_append,
        List.length_singleton]
      omega
    · rw [outage_failure, reports_silent _ _ _ rfl]
      exact h.spaced

theorem counts_recovered (now : ℕ) (h : Counts rs r) : Answered rs (.recovered now (r.onRecovered now).1) ∧
    Counts (rs ++ [.recovered now (r.onRecovered now).1]) (r.onRecovered now).2 := by
  by_cases hopen : outage rs = []
  · have hleft := h.unreported
    have hzero := h.failures
    rw [hopen] at hleft hzero
    rw [onRecovered, if_pos (h.open_iff.mpr hopen)]
    refine ⟨⟨by rw [hopen]; rfl, by rw [if_pos hopen]⟩, ?_⟩
    exact counts_open _ r (outage_recovered rs now {}) hzero hleft
  · rw [onRecovered, if_neg fun hzero => hopen (h.open_iff.mp hzero)]
    refine ⟨⟨h.failures, ?_⟩, counts_open _ _ (outage_recovered rs now _) rfl rfl⟩
    rw [if_neg hopen, h.since hopen]

end Counts

/-! ## What holds of every run -/

section Runs

variable (next : ℕ → ℕ) (most : ℕ) (hnext : ∀ n < most, next n = n + 1)

theorem length_outage (es : List Event) : (outage (transcript (call next) {} es)).length = failuresOf es := by
  induction es using List.reverseRecOn with
  | nil => rfl
  | append_singleton es e ih =>
    rw [transcript_append]
    cases e with
    | failure now =>
      rw [failuresOf_failure, ← ih]
      exact (congrArg List.length (outage_failure _ now _)).trans List.length_append
    | recovered now =>
      rw [failuresOf_recovered]
      exact congrArg List.length (outage_recovered _ now _)

include hnext

theorem counts_call (rs : List Reply) (r : SinkRecovery) (e : Event) (h : Counts rs r)
    (hmost : ∀ now, e = .failure now → (outage rs).length < most) :
    Answered rs (r.call next e).1 ∧ Counts (rs ++ [(r.call next e).1]) (r.call next e).2 := by
  cases e with
  | failure now =>
    by_cases hopen : outage rs = []
    · exact counts_first next now h hopen
    · exact counts_again next most hnext now h hopen (hmost now rfl)
  | recovered now => exact counts_recovered now h

theorem run_counts (es : List Event) (hmost : ∀ p, p <+: es → failuresOf p ≤ most) :
    Counts (transcript (call next) {} es) (stateAfter (call next) {} es) ∧
    EachAfter Answered (transcript (call next) {} es) := by
  induction es using List.reverseRecOn with
  | nil => exact ⟨counts_open [] {} rfl rfl rfl, eachAfter_nil _⟩
  | append_singleton es e ih =>
    obtain ⟨hcounts, hanswered⟩ := ih fun p hp => hmost p (hp.trans (List.prefix_append _ _))
    rw [transcript_append, stateAfter_append]
    obtain ⟨ha, hc⟩ := counts_call next most hnext _ _ e hcounts fun now he => by
      have hle := hmost _ List.prefix_rfl
      rw [he, failuresOf_failure] at hle
      rw [length_outage]
      exact hle
    exact ⟨hc, eachAfter_snoc _ _ _ hanswered ha⟩

end Runs

/-- The laws of reporting, for the answers of a whole run. -/
structure Reported (rs : List Reply) : Prop where
  first : ∀ pre now d post, rs = pre ++ .failure now d :: post → (d.firstFailure = true ↔ outage pre = [])
  atOnce : ∀ pre now d post, rs = pre ++ .failure now d :: post → outage pre = [] → d.report = true ∧
    d.suppressed = 0 ∧ d.closedFor = 0
  spaced : ∀ pre, pre <+: rs → (reports (outage pre)).Pairwise fun f g => f.1 + kReportInterval ≤ g.1
  complete : ∀ pre, pre <+: rs → outage pre ≠ [] →
    (outage pre).length = 1 + summarised (outage pre) + untold (outage pre)
  ended : ∀ pre now ended post, rs = pre ++ .recovered now ended :: post → outage pre ≠ [] →
    ended.failures = (outage pre).length ∧ ended.closedFor = (now - began (outage pre)) / 10 ^ 9
  anew : ∀ pre t ended now d post, rs = pre ++ .recovered t ended :: .failure now d :: post →
    d.firstFailure = true

theorem reported (next : ℕ → ℕ) (most : ℕ) (hnext : ∀ n < most, next n = n + 1) (es : List Event)
    (hmost : ∀ p, p <+: es → failuresOf p ≤ most) : Reported (transcript (call next) {} es) := by
  obtain ⟨-, hanswered⟩ := run_counts next most hnext es hmost
  -- what is said of the state at the end holds at every point
  have hcounts : ∀ pre, pre <+: transcript (call next) {} es → ∃ r, Counts pre r := by
    intro pre hpre
    obtain ⟨post, hpost⟩ := hpre
    obtain ⟨es₁, es₂, rfl, rfl, -⟩ := transcript_split (call next) {} es pre post hpost.symm
    exact ⟨_, (run_counts next most hnext es₁ fun p hp => hmost p (hp.trans (List.prefix_append _ _))).1⟩
  refine ⟨fun pre now d post h => (hanswered pre _ post h).1,
    fun pre now d post h => (hanswered pre _ post h).2, fun pre h => ?_, fun pre h => ?_,
    fun pre now ended post h hclosed => ?_, fun pre t ended now d post h => ?_⟩
  · obtain ⟨r, hr⟩ := hcounts pre h
    exact hr.spaced
  · obtain ⟨r, hr⟩ := hcounts pre h
    exact hr.complete
  · obtain ⟨hfailures, hclosedFor⟩ := hanswered pre _ post h
    rw [if_neg hclosed] at hclosedFor
    exact ⟨hfailures, hclosedFor⟩
  · have hafter := hanswered (pre ++ [.recovered t ended]) (.failure now d) post
      (by rw [h, List.append_assoc]; rfl)
    exact hafter.1.mpr (outage_recovered pre t ended)

theorem failuresOf_le (es p : List Event) (hp : p <+: es) : failuresOf p ≤ es.length := by
  refine le_trans ?_ hp.length_le
  induction p using List.reverseRecOn with
  | nil => exact Nat.le_refl 0
  | append_singleton p e ih =>
    have hle := ih ((List.prefix_append _ _).trans hp)
    rw [List.length_append, List.length_singleton]
    cases e with
    | failure now =>
      rw [failuresOf_failure]
      exact Nat.succ_le_succ hle
    | recovered now =>
      rw [failuresOf_recovered]
      exact Nat.zero_le _

/-- The recovery of a sink, whose counters count every attempt, reports as it should. -/
theorem sink_reported (es : List Event) : Reported (transcript (call (· + 1)) {} es) :=
  reported (· + 1) es.length (fun _ _ => rfl) es (failuresOf_le es)

/-! ## Counters of 64 bits -/

/-- `++` on a `uint64_t`. -/
def increment (n : ℕ) : ℕ := (n + 1) % 2 ^ 64

theorem increment_eq (n : ℕ) (h : n < 2 ^ 64 - 1) : increment n = n + 1 := Nat.mod_eq_of_lt (by omega)

/-- Where no outage has `2 ^ 64` failures, every outage of a run is reported as it should be. -/
theorem run_reported (es : List Event) (h : ∀ p, p <+: es → failuresOf p < 2 ^ 64) :
    Reported (transcript (call increment) {} es) :=
  reported increment (2 ^ 64 - 1) increment_eq es fun p hp => Nat.le_sub_one_of_lt (h p hp)

/-- Two outages: one with a report after a minute, and one that starts while that minute would still run. -/
def twoOutages : List Event :=
  [.failure 0, .failure (30 * 10 ^ 9), .failure (60 * 10 ^ 9), .recovered (90 * 10 ^ 9),
    .failure (95 * 10 ^ 9), .failure (125 * 10 ^ 9)]

theorem run_reported_twoOutages : Reported (transcript (call increment) {} twoOutages) ∧
    (outage (transcript (call increment) {} twoOutages)).map (fun f => (f.1, f.2.report)) =
      [(95 * 10 ^ 9, true), (125 * 10 ^ 9, false)] := by
  refine ⟨run_reported twoOutages fun p hp => ?_, by decide⟩
  exact lt_of_le_of_lt (failuresOf_le twoOutages p hp) (by decide)

/-- `n` failures at one moment. -/
def burst (n : ℕ) : List Event := List.replicate n (.failure 0)

theorem burst_succ (n : ℕ) : burst (n + 1) = burst n ++ [.failure 0] := List.replicate_succ'

theorem burst_failures (n : ℕ) : (stateAfter (call increment) {} (burst n)).failures = n % 2 ^ 64 := by
  induction n with
  | zero => rfl
  | succ n ih =>
    rw [burst_succ, stateAfter_append]
    change ((stateAfter (call increment) {} (burst n)).onFailureBy increment 0).2.failures = _
    by_cases hzero : (stateAfter (call increment) {} (burst n)).failures = 0
    · rw [onFailureBy_first _ _ _ hzero]
      rw [hzero] at ih
      dsimp only
      omega
    · rw [onFailureBy_early _ _ _ hzero (by rw [Nat.zero_sub]; decide)]
      dsimp only
      rw [ih, increment, Nat.mod_add_mod]

theorem failuresOf_burst (n : ℕ) : failuresOf (burst n) = n := by
  induction n with
  | zero => rfl
  | succ n ih => rw [burst_succ, failuresOf_failure, ih]

/-- After `2 ^ 64` failures of one outage the next one is taken for the first of another. -/
theorem outage_wraps : ¬ ∀ es : List Event, (es.map Event.now).Pairwise (· ≤ ·) →
    Reported (transcript (call increment) {} es) := by
  intro h
  obtain ⟨n, hn⟩ : ∃ n : ℕ, n = 2 ^ 64 := ⟨_, rfl⟩
  have hordered : ((burst (n + 1)).map Event.now).Pairwise (· ≤ ·) := by
    rw [burst, List.map_replicate]
    exact List.pairwise_replicate.mpr (.inr (Nat.le_refl _))
  have hreported := h _ hordered
  rw [burst_succ, transcript_append] at hreported
  have hwraps := burst_failures n
  rw [show n % 2 ^ 64 = 0 by omega] at hwraps
  have hopen := (hreported.first _ 0 _ [] rfl).mp (by rw [onFailureBy_first _ _ _ hwraps])
  have hlength := length_outage increment (burst n)
  rw [hopen, failuresOf_burst, hn] at hlength
  exact absurd hlength (by decide)

end Minilog.Output.SinkRecovery
