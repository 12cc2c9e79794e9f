import Minilog.Lib.Transition
import Minilog.Server.EventLoop

/-! Receive errors over whole runs (`receive_backoff.hpp`).

`replies` are the results of a sequence of `onError` and `onSuccess` calls; everything below is said about
them alone, and `Counts` connects the fields of a `ReceiveBackoff` with the replies so far. The counters are
64 bits wide, so what they count comes modulo `2 ^ 64`. -/
namespace Minilog.Server.ReceiveBackoff
open Lib
set_option autoImplicit false

inductive Event where
  | error (now : ℕ)
  | success

/-- What a call returned. -/
inductive Reply where
  | error (now : ℕ) (decision : Decision)
  | success (ended : ℕ)

def call (b : ReceiveBackoff) : Event → Reply × ReceiveBackoff
  | .error now => (.error now (b.onError now).1, (b.onError now).2)
  | .success => (.success b.onSuccess.1, b.onSuccess.2)

def replies (b : ReceiveBackoff) : List Event → List Reply
  | [] => []
  | e :: es => (b.call e).1 :: replies (b.call e).2 es

def after (b : ReceiveBackoff) (es : List Event) : ReceiveBackoff := es.foldl (fun b e => (b.call e).2) b

/-! ## What the replies say -/

def Reply.isError : Reply → Bool
  | .error .. => true
  | .success _ => false

def Reply.report : Reply → Option (ℕ × ℕ)
  | .error now d => if d.report then some (now, d.suppressed) else none
  | .success _ => none

def Reply.isRecovery : Reply → Bool
  | .error .. => false
  | .success ended => ended ≠ 0

def errors (rs : List Reply) : ℕ := rs.countP Reply.isError

/-- The reports: their times, and the errors each of them sums up. -/
def reports (rs : List Reply) : List (ℕ × ℕ) := rs.filterMap Reply.report

/-- The errors since the last success. -/
def streakOf (rs : List Reply) : ℕ := (rs.reverse.takeWhile Reply.isError).length

/-- Whether one of these was reported. -/
def streakTold (rs : List Reply) : Bool := (rs.reverse.takeWhile Reply.isError).any fun r => r.report.isSome

/-- The errors since the last report. -/
def untold (rs : List Reply) : ℕ := errors (rs.reverse.takeWhile fun r => r.report.isNone)

/-- The log lines of a stretch: its reports and its recoveries. -/
def logLines (rs : List Reply) : ℕ := (reports rs).length + rs.countP Reply.isRecovery

section Snoc

variable (rs : List Reply) (now ended : ℕ) (d : Decision)

@[simp] theorem errors_error : errors (rs ++ [.error now d]) = errors rs + 1 := List.countP_append ..

@[simp] theorem errors_success : errors (rs ++ [.success ended]) = errors rs := List.countP_append ..

@[simp] theorem reports_error : reports (rs ++ [.error now d]) = reports rs ++ if d.report
    then [(now, d.suppressed)] else [] := by
  rw [reports, List.filterMap_append]
  cases hd : d.report with
  | false => rw [List.filterMap_cons_none (by rw [Reply.report, hd]; rfl)]; rfl
  | true => rw [List.filterMap_cons_some (by rw [Reply.report, hd]; rfl)]; rfl

@[simp] theorem reports_success : reports (rs ++ [.success ended]) = reports rs := by
  rw [reports, List.filterMap_append, List.filterMap_cons_none rfl]
  exact List.append_nil _

@[simp] theorem streakOf_error : streakOf (rs ++ [.error now d]) = streakOf rs + 1 := by
  rw [streakOf, List.reverse_append, List.reverse_singleton, List.singleton_append,
    List.takeWhile_cons_of_pos rfl]
  rfl

@[simp] theorem streakOf_success : streakOf (rs ++ [.success ended]) = 0 := by
  rw [streakOf, List.reverse_append, List.reverse_singleton, List.singleton_append,
    List.takeWhile_cons_of_neg Bool.false_ne_true]
  rfl

@[simp] theorem streakTold_error : streakTold (rs ++ [.error now d]) = (d.report || streakTold rs) := by
  rw [streakTold, List.reverse_append, List.reverse_singleton, List.singleton_append,
    List.takeWhile_cons_of_pos rfl, List.any_cons]
  cases hd : d.report with
  | false => rw [Reply.report, hd]; rfl
  | true => rw [Reply.report, hd]; rfl

@[simp] theorem streakTold_success : streakTold (rs ++ [.success ended]) = false := by
  rw [streakTold, List.reverse_append, List.reverse_singleton, List.singleton_append,
    List.takeWhile_cons_of_neg Bool.false_ne_true]
  rfl

@[simp] theorem untold_error : untold (rs ++ [.error now d]) = if d.report then 0 else untold rs + 1 := by
  rw [untold, List.reverse_append, List.reverse_singleton, List.singleton_append, List.takeWhile_cons]
  cases hd : d.report with
  | false => rw [Reply.report, hd]; exact List.countP_cons_of_pos rfl
  | true => rw [Reply.report, hd]; rfl

@[simp] theorem untold_success : untold (rs ++ [.success ended]) = untold rs := by
  rw [untold, List.reverse_append, List.reverse_singleton, List.singleton_append,
    List.takeWhile_cons_of_pos rfl]
  exact List.countP_cons_of_neg Bool.false_ne_true

end Snoc

theorem replies_eq (b : ReceiveBackoff) (es : List Event) : b.replies es = transcript call b es := by
  induction es generalizing b with
  | nil => rfl
  | cons e es ih => rw [replies, ih, transcript]

theorem replies_append (b : ReceiveBackoff) (es es' : List Event) :
    b.replies (es ++ es') = b.replies es ++ (b.after es).replies es' := by
  rw [replies_eq, replies_eq, replies_eq, transcript_append]
  rfl

/-- Each part of the replies belongs to a part of the calls. -/
theorem replies_split (b : ReceiveBackoff) (es : List Event) (pre post : List Reply)
    (h : b.replies es = pre ++ post) :
    ∃ es₁ es₂, es = es₁ ++ es₂ ∧ pre = b.replies es₁ ∧ post = (b.after es₁).replies es₂ := by
  rw [replies_eq] at h
  obtain ⟨es₁, es₂, hes, hpre, hpost⟩ := transcript_split call b es pre post h
  refine ⟨es₁, es₂, hes, ?_, ?_⟩
  · rw [replies_eq, hpre]
  · rw [replies_eq, hpost]
    rfl

/-! ## The state is what the replies say -/

/-- The delay after `k` consecutive errors, `k` not 0. -/
def delayOf (k : ℕ) : ℕ := min (50 * 2 ^ ((k - 1) % 2 ^ 64)) 1000

theorem delayOf_first (k : ℕ) (h : (k + 1) % 2 ^ 64 = 1) : delayOf (k + 1) = 50 := by
  have hzero : (k + 1 - 1) % 2 ^ 64 = 0 := by omega
  rw [delayOf, hzero]
  rfl

theorem delayOf_next (k : ℕ) (h : (k + 1) % 2 ^ 64 ≠ 1) : delayOf (k + 1) = min (delayOf k * 2) 1000 := by
  have hnext : (k + 1 - 1) % 2 ^ 64 = (k - 1) % 2 ^ 64 + 1 := by omega
  rw [delayOf, delayOf, hnext, pow_succ]
  omega

structure Counts (rs : List Reply) (b : ReceiveBackoff) : Prop where
  streak : b.streak = streakOf rs % 2 ^ 64
  unreported : b.unreported = untold rs % 2 ^ 64
  told : b.streakReported = streakTold rs
  delay : 0 < streakOf rs → b.delay = delayOf (streakOf rs)
  last : b.lastReport = (reports rs).getLast?.map Prod.fst
  never : reports rs = [] → errors rs = 0

theorem counts_start : Counts [] {} := ⟨rfl, rfl, rfl, fun h => absurd h (Nat.lt_irrefl 0), rfl, fun _ => rfl⟩

/-- The decision of an error after these replies. -/
structure Decided (rs : List Reply) (now : ℕ) (d : Decision) : Prop where
  delay : d.delay = delayOf (streakOf rs + 1)
  report : d.report = true ↔ ∀ last ∈ (reports rs).getLast?, kReportInterval ≤ now - last.1
  suppressed : d.suppressed = if d.report = true ∧ reports rs ≠ [] then (untold rs + 1) % 2 ^ 64 else 0

section Error

variable (b : ReceiveBackoff) (now : ℕ)

/-- The delay of the next error. -/
def nextDelay : ℕ := if (b.streak + 1) % 2 ^ 64 = 1 then kFirstDelay else min (b.delay * 2) kMaxDelay

/-- An error that is reported: the first one, or the interval has passed. -/
theorem onError_due (h : ∀ last ∈ b.lastReport, kReportInterval ≤ now - last) : b.onError now =
    (⟨b.nextDelay, true, if b.lastReport = none then 0 else (b.unreported + 1) % 2 ^ 64⟩,
      ⟨(b.streak + 1) % 2 ^ 64, 0, true, b.nextDelay, some now⟩) := by
  unfold onError
  cases hl : b.lastReport with
  | none => rfl
  | some last =>
    dsimp only
    rw [if_pos (h last hl), if_neg (Option.some_ne_none last)]
    rfl

/-- An error that is only counted. -/
theorem onError_early (last : ℕ) (hl : b.lastReport = some last) (h : ¬ kReportInterval ≤ now - last) :
    b.onError now = (⟨b.nextDelay, false, 0⟩,
      ⟨(b.streak + 1) % 2 ^ 64, (b.unreported + 1) % 2 ^ 64, b.streakReported, b.nextDelay, some last⟩) := by
  unfold onError
  dsimp only
  rw [hl]
  dsimp only
  rw [if_neg h]
  rfl

end Error

theorem Counts.nextDelay {rs : List Reply} {b : ReceiveBackoff} (h : Counts rs b) :
    b.nextDelay = delayOf (streakOf rs + 1) := by
  unfold ReceiveBackoff.nextDelay
  rw [h.streak, Nat.mod_add_mod]
  split_ifs with hone
  · exact (delayOf_first _ hone).symm
  · have hpos : 0 < streakOf rs := by
      by_contra hzero
      have h0 : streakOf rs = 0 := by omega
      rw [h0] at hone
      exact hone rfl
    rw [h.delay hpos]
    exact (delayOf_next _ hone).symm

theorem Counts.lastReport_none {rs : List Reply} {b : ReceiveBackoff} (h : Counts rs b) :
    b.lastReport = none ↔ reports rs = [] := by
  rw [h.last, Option.map_eq_none_iff, List.getLast?_eq_none_iff]

theorem decided_error (rs : List Reply) (b : ReceiveBackoff) (now : ℕ) (h : Counts rs b) :
    Decided rs now (b.onError now).1 ∧ Counts (rs ++ [.error now (b.onError now).1]) (b.onError now).2 := by
  have hstreak : (b.streak + 1) % 2 ^ 64 = (streakOf rs + 1) % 2 ^ 64 := by rw [h.streak, Nat.mod_add_mod]
  have hunreported : (b.unreported + 1) % 2 ^ 64 = (untold rs + 1) % 2 ^ 64 := by
    rw [h.unreported, Nat.mod_add_mod]
  by_cases hdue : ∀ last ∈ b.lastReport, kReportInterval ≤ now - last
  · have hall : ∀ last ∈ (reports rs).getLast?, kReportInterval ≤ now - last.1 := by
      intro last hlast
      exact hdue last.1 (by rw [h.last, hlast]; rfl)
    rw [onError_due b now hdue]
    refine ⟨⟨h.nextDelay, iff_of_true rfl hall, ?_⟩, ⟨?_, ?_, ?_, fun _ => ?_, ?_, ?_⟩⟩
    · rw [hunreported]
      by_cases hnone : reports rs = []
      · rw [if_pos (h.lastReport_none.mpr hnone), if_neg fun hr => hr.2 hnone]
      · rw [if_neg fun hl => hnone (h.lastReport_none.mp hl), if_pos ⟨rfl, hnone⟩]
    · rw [streakOf_error]
      exact hstreak
    · rw [untold_error]
      rfl
    · rw [streakTold_error]
      rfl
    · rw [streakOf_error]
      exact h.nextDelay
    · rw [reports_error, if_pos rfl, List.getLast?_concat]
      rfl
    · intro hno
      rw [reports_error, if_pos rfl] at hno
      exact absurd (List.append_eq_nil_iff.mp hno).2 (List.cons_ne_nil _ _)
  · push Not at hdue
    obtain ⟨last, hl, hearly⟩ := hdue
    have hlast := h.last
    rw [hl] at hlast
    obtain ⟨p, hp, hplast⟩ := Option.map_eq_some_iff.mp hlast.symm
    rw [onError_early b now last hl (Nat.not_le.mpr hearly)]
    refine ⟨⟨h.nextDelay, iff_of_false Bool.false_ne_true fun hall => ?_, ?_⟩,
      ⟨?_, ?_, ?_, fun _ => ?_, ?_, ?_⟩⟩
    · have hle := hall p hp
      rw [hplast] at hle
      omega
    · rw [if_neg fun hr => Bool.false_ne_true hr.1]
    · rw [streakOf_error]
      exact hstreak
    · rw [untold_error]
      exact hunreported
    · rw [streakTold_error]
      exact h.told
    · rw [streakOf_error]
      exact h.nextDelay
    · rw [reports_error, if_neg Bool.false_ne_true, List.append_nil]
      exact hlast
    · intro hno
      rw [reports_error, if_neg Bool.false_ne_true, List.append_nil] at hno
      rw [hno] at hp
      cases hp

theorem counts_success (rs : List Reply) (b : ReceiveBackoff) (h : Counts rs b) :
    b.onSuccess.1 = (if streakTold rs then streakOf rs % 2 ^ 64 else 0) ∧
    Counts (rs ++ [.success b.onSuccess.1]) b.onSuccess.2 := by
  refine ⟨by rw [onSuccess, h.told, h.streak], ⟨?_, ?_, ?_, ?_, ?_, ?_⟩⟩
  · rw [streakOf_success]
    rfl
  · rw [untold_success]
    exact h.unreported
  · rw [streakTold_success]
    rfl
  · rw [streakOf_success]
    exact fun hpos => absurd hpos (Nat.lt_irrefl 0)
  · rw [reports_success]
    exact h.last
  · rw [reports_success, errors_success]
    exact h.never

theorem counts_call (rs : List Reply) (b : ReceiveBackoff) (e : Event) (h : Counts rs b) :
    Counts (rs ++ [(b.call e).1]) (b.call e).2 := by
  cases e with
  | error now => exact (decided_error rs b now h).2
  | success => exact (counts_success rs b h).2

theorem counts_after (es : List Event) : Counts (replies {} es) (after {} es) := by
  rw [replies_eq]
  exact transcript_induct call {} Counts counts_start counts_call es

/-- Each error of a run, and each success. -/
theorem reply_error (es : List Event) (pre post : List Reply) (now : ℕ) (d : Decision)
    (h : replies {} es = pre ++ .error now d :: post) :
    Decided pre now d := by
  obtain ⟨es₁, es₂, -, hpre, hpost⟩ := replies_split {} es pre _ h
  have hcounts := counts_after es₁
  rw [← hpre] at hcounts
  cases es₂ with
  | nil => cases hpost
  | cons e es₂ =>
    cases e with
    | error t =>
      obtain ⟨hhead, -⟩ := List.cons.inj hpost
      cases hhead
      exact (decided_error pre _ now hcounts).1
    | success => cases (List.cons.inj hpost).1

theorem reply_success (es : List Event) (pre post : List Reply) (ended : ℕ)
    (h : replies {} es = pre ++ .success ended :: post) :
    ended = if streakTold pre then streakOf pre % 2 ^ 64 else 0 := by
  obtain ⟨es₁, es₂, -, hpre, hpost⟩ := replies_split {} es pre _ h
  have hcounts := counts_after es₁
  rw [← hpre] at hcounts
  cases es₂ with
  | nil => cases hpost
  | cons e es₂ =>
    cases e with
    | error t => cases (List.cons.inj hpost).1
    | success =>
      obtain ⟨hhead, -⟩ := List.cons.inj hpost
      cases hhead
      exact (counts_success pre _ hcounts).1

/-! ## What holds of every run -/

/-- The first report names one error. -/
def firstTold (rs : List Reply) : ℕ := if reports rs = [] then 0 else 1

/-- The errors that the later reports sum up. -/
def toldLater (rs : List Reply) : ℕ := ((reports rs).tail.map Prod.snd).sum

/-- What a report sums up, its own error included, fits into 64 bits. -/
def SumsFit (rs : List Reply) : Prop :=
  ∀ p now d, p ++ [.error now d] <+: rs → d.report = true → untold p + 1 < 2 ^ 64

theorem SumsFit.of_append {rs qs : List Reply} (h : SumsFit (rs ++ qs)) : SumsFit rs := fun p now d hp =>
  h p now d (hp.trans (List.prefix_append _ _))

/-- The reports and what came after the last one make up the errors. -/
structure Accounted (rs : List Reply) : Prop where
  wrapped : errors rs % 2 ^ 64 = (firstTold rs + toldLater rs + untold rs) % 2 ^ 64
  exactly : SumsFit rs → errors rs = firstTold rs + toldLater rs + untold rs

theorem accounted_error (rs : List Reply) (now : ℕ) (d : Decision)
    (hnever : reports rs = [] → errors rs = 0) (hd : Decided rs now d) (h : Accounted rs) :
    Accounted (rs ++ [.error now d]) := by
  have hwrapped := h.wrapped
  have hsuppressed := hd.suppressed
  cases hr : d.report with
  | false =>
    have hsame : reports (rs ++ [.error now d]) = reports rs := by
      rw [reports_error, hr, if_neg Bool.false_ne_true, List.append_nil]
    have huntold : untold (rs ++ [.error now d]) = untold rs + 1 := by
      rw [untold_error, hr, if_neg Bool.false_ne_true]
    have hlater : toldLater (rs ++ [.error now d]) = toldLater rs := by rw [toldLater, hsame, toldLater]
    have hfirst : firstTold (rs ++ [.error now d]) = firstTold rs := by rw [firstTold, hsame, firstTold]
    refine ⟨?_, fun hsmall => ?_⟩
    · rw [errors_error, hfirst, hlater, huntold]
      omega
    · have heq := h.exactly hsmall.of_append
      rw [errors_error, hfirst, hlater, huntold]
      omega
  | true =>
    have hmore : reports (rs ++ [.error now d]) = reports rs ++ [(now, d.suppressed)] := by
      rw [reports_error, hr, if_pos rfl]
    have huntold : untold (rs ++ [.error now d]) = 0 := by rw [untold_error, hr, if_pos rfl]
    have hfirst : firstTold (rs ++ [.error now d]) = 1 := by
      rw [firstTold, hmore, if_neg (List.append_ne_nil_of_right_ne_nil _ (List.cons_ne_nil _ _))]
    by_cases hnone : reports rs = []
    · have hlater : toldLater (rs ++ [.error now d]) = 0 := by rw [toldLater, hmore, hnone]; rfl
      rw [hnever hnone] at hwrapped
      refine ⟨?_, fun _ => ?_⟩
      · rw [errors_error, hfirst, hlater, huntold, hnever hnone]
      · rw [errors_error, hfirst, hlater, huntold, hnever hnone]
    · have hlater : toldLater (rs ++ [.error now d]) = toldLater rs + (untold rs + 1) % 2 ^ 64 := by
        rw [if_pos ⟨hr, hnone⟩] at hsuppressed
        rw [toldLater, hmore, List.tail_append_of_ne_nil hnone, List.map_append, List.sum_append,
          hsuppressed, toldLater]
        rfl
      have hone : firstTold rs = 1 := if_neg hnone
      refine ⟨?_, fun hsmall => ?_⟩
      · rw [errors_error, hfirst, hlater, huntold]
        omega
      · have heq := h.exactly hsmall.of_append
        have hlt := hsmall rs now d List.prefix_rfl hr
        rw [errors_error, hfirst, hlater, huntold, Nat.mod_eq_of_lt hlt]
        omega

theorem accounted_success (rs : List Reply) (ended : ℕ) (h : Accounted rs) :
    Accounted (rs ++ [.success ended]) := by
  have hfirst : firstTold (rs ++ [.success ended]) = firstTold rs := by
    rw [firstTold, reports_success, firstTold]
  have hlater : toldLater (rs ++ [.success ended]) = toldLater rs := by
    rw [toldLater, reports_success, toldLater]
  refine ⟨?_, fun hsmall => ?_⟩
  · rw [errors_success, hfirst, hlater, untold_success]
    exact h.wrapped
  · rw [errors_success, hfirst, hlater, untold_success]
    exact h.exactly hsmall.of_append

/-- Any two reports are an interval apart. -/
def Spaced (rs : List Reply) : Prop := (reports rs).Pairwise fun p q => p.1 + kReportInterval ≤ q.1

theorem spaced_error (rs : List Reply) (now : ℕ) (d : Decision) (hd : Decided rs now d) (h : Spaced rs) :
    Spaced (rs ++ [.error now d]) := by
  unfold Spaced
  rw [reports_error]
  cases hr : d.report with
  | false =>
    rw [if_neg Bool.false_ne_true, List.append_nil]
    exact h
  | true =>
    rw [if_pos rfl]
    have hpos : 0 < kReportInterval := by decide
    refine pairwise_snoc _ (fun p q r hpq hqr => by omega) _ _ h fun last hlast => ?_
    have hdue := hd.report.mp hr last hlast
    dsimp only
    omega

theorem replies_accounted (es : List Event) : Accounted (replies {} es) ∧ Spaced (replies {} es) := by
  induction es using List.reverseRecOn with
  | nil => exact ⟨⟨rfl, fun _ => rfl⟩, List.Pairwise.nil⟩
  | append_singleton es e ih =>
    have hcounts := counts_after es
    rw [replies_append]
    cases e with
    | error now =>
      have hd := (decided_error _ _ now hcounts).1
      exact ⟨accounted_error _ now _ hcounts.never hd ih.1, spaced_error _ now _ hd ih.2⟩
    | success =>
      refine ⟨accounted_success _ _ ih.1, ?_⟩
      unfold Spaced
      change (reports (_ ++ [.success _])).Pairwise _
      rw [reports_success]
      exact ih.2

theorem streakReported_onError (b : ReceiveBackoff) (now : ℕ) :
    (b.onError now).2.streakReported = ((b.onError now).1.report || b.streakReported) := by
  by_cases hdue : ∀ last ∈ b.lastReport, kReportInterval ≤ now - last
  · rw [onError_due b now hdue]
    rfl
  · push Not at hdue
    obtain ⟨last, hl, hearly⟩ := hdue
    rw [onError_early b now last hl (Nat.not_le.mpr hearly)]
    exact (Bool.false_or _).symm

/-- Each recovery takes up one report, the one that may still be open in front included. -/
theorem recoveries_le (b : ReceiveBackoff) (es : List Event) :
    (b.replies es).countP Reply.isRecovery + (b.after es).streakReported.toNat ≤
    (reports (b.replies es)).length + b.streakReported.toNat := by
  induction es generalizing b with
  | nil => exact le_of_eq (by rw [after]; rfl)
  | cons e es ih =>
    cases e with
    | error now =>
      have hrest := ih (b.onError now).2
      rw [streakReported_onError] at hrest
      have hcount : (b.replies (.error now :: es)).countP Reply.isRecovery =
          ((b.onError now).2.replies es).countP Reply.isRecovery :=
        List.countP_cons_of_neg Bool.false_ne_true
      have hafter : b.after (.error now :: es) = (b.onError now).2.after es := rfl
      rw [hcount, hafter]
      cases hr : (b.onError now).1.report with
      | false =>
        have hsame : reports (b.replies (.error now :: es)) = reports ((b.onError now).2.replies es) :=
          List.filterMap_cons_none (by rw [call, Reply.report, hr]; rfl)
        rw [hr, Bool.false_or] at hrest
        rw [hsame]
        exact hrest
      | true =>
        have hmore : reports (b.replies (.error now :: es)) = (now, (b.onError now).1.suppressed) ::
            reports ((b.onError now).2.replies es) :=
          List.filterMap_cons_some (by rw [call, Reply.report, hr]; rfl)
        rw [hr, Bool.true_or, Bool.toNat_true] at hrest
        rw [hmore, List.length_cons]
        omega
    | success =>
      have hrest := ih b.onSuccess.2
      have hflag : b.onSuccess.2.streakReported.toNat = 0 := rfl
      have hreports : reports (b.replies (.success :: es)) = reports (b.onSuccess.2.replies es) :=
        List.filterMap_cons_none rfl
      have hafter : b.after (.success :: es) = b.onSuccess.2.after es := rfl
      rw [hreports, hafter, replies, List.countP_cons]
      have hone : (if (b.call .success).1.isRecovery = true then 1 else 0) ≤ b.streakReported.toNat := by
        cases hs : b.streakReported with
        | true =>
          split_ifs
          · exact Nat.le_refl 1
          · exact Nat.zero_le 1
        | false =>
          have hzero : b.onSuccess.1 = 0 := by rw [onSuccess, hs]; rfl
          rw [call, Reply.isRecovery, hzero]
          rfl
      have hcall : (b.call .success).2 = b.onSuccess.2 := rfl
      rw [hcall]
      omega

theorem reports_of_errors (rs : List Reply) (h : errors rs = 0) : reports rs = [] := by
  refine List.filterMap_eq_nil_iff.mpr fun r hr => ?_
  have hno := List.countP_eq_zero.mp h r hr
  cases r with
  | error now d => exact absurd rfl hno
  | success ended => rfl

/-- The laws of pacing: delays, reports and recoveries of a run that leaves `unreported` errors counted. -/
structure Paced (rs : List Reply) (unreported : ℕ) : Prop where
  delay : ∀ pre now d post, rs = pre ++ .error now d :: post →
    d.delay = min (50 * 2 ^ (streakOf pre % 2 ^ 64)) 1000
  spaced : (reports rs).Pairwise fun p q => p.1 + kReportInterval ≤ q.1
  first : ∀ pre now d post, rs = pre ++ .error now d :: post → errors pre = 0 → d.report = true
  wrapped : errors rs % 2 ^ 64 = (firstTold rs + toldLater rs + unreported) % 2 ^ 64
  exactly : SumsFit rs → untold rs < 2 ^ 64 → errors rs = firstTold rs + toldLater rs + unreported
  ended : ∀ pre ended post, rs = pre ++ .success ended :: post →
    ended = if streakTold pre then streakOf pre % 2 ^ 64 else 0
  recovered : ∀ pre post, rs = pre ++ post → pre.countP Reply.isRecovery ≤ (reports pre).length
  lines : ∀ pre part post, rs = pre ++ (part ++ post) → logLines part ≤ 2 * (reports part).length + 1

/-- Every run of errors and successes is paced. -/
theorem run_paced (es : List Event) : Paced (replies {} es) (after {} es).unreported := by
  obtain ⟨haccounted, hspaced⟩ := replies_accounted es
  have hunreported := (counts_after es).unreported
  have hsplit : ∀ pre post, replies {} es = pre ++ post →
      pre.countP Reply.isRecovery ≤ (reports pre).length := by
    intro pre post h
    obtain ⟨es₁, es₂, -, rfl, -⟩ := replies_split {} es pre post h
    have hle := recoveries_le {} es₁
    have hflag : ({} : ReceiveBackoff).streakReported.toNat = 0 := rfl
    omega
  refine ⟨?_, hspaced, ?_, ?_, ?_, fun pre ended post h => reply_success es pre post ended h, hsplit, ?_⟩
  · intro pre now d post h
    exact (reply_error es pre post now d h).delay
  · intro pre now d post h hnone
    refine (reply_error es pre post now d h).report.mpr ?_
    rw [reports_of_errors pre hnone]
    exact fun last hlast => by cases hlast
  · rw [haccounted.wrapped, hunreported]
    omega
  · intro hsmall hlt
    rw [haccounted.exactly hsmall, hunreported, Nat.mod_eq_of_lt hlt]
  · intro pre part post h
    obtain ⟨es₁, es₂, -, -, hpart⟩ := replies_split {} es pre _ h
    obtain ⟨es₃, es₄, -, hpart', -⟩ := replies_split (after {} es₁) es₂ part post hpart.symm
    have hle := recoveries_le (after {} es₁) es₃
    rw [← hpart'] at hle
    have hflag := Bool.toNat_le (after {} es₁).streakReported
    unfold logLines
    omega

/-! ## Counters of 64 bits -/

theorem streakOf_replicate (n : ℕ) : streakOf (replies {} (List.replicate n (.error 0))) = n := by
  induction n with
  | zero => rfl
  | succ n ih =>
    rw [List.replicate_succ', replies_append]
    exact (streakOf_error _ _ _).trans (congrArg (· + 1) ih)

/-- After `2 ^ 64` errors in a row the next one is taken for the first. -/
theorem streak_wraps : ¬ ∀ es pre now d post, replies {} es = pre ++ .error now d :: post →
    d.delay = min (50 * 2 ^ streakOf pre) 1000 := by
  intro h
  obtain ⟨n, hn⟩ : ∃ n : ℕ, n = 2 ^ 64 := ⟨_, rfl⟩
  have hrun : replies {} (List.replicate n (.error 0) ++ [.error 0]) =
      replies {} (List.replicate n (.error 0)) ++
      .error 0 ((after {} (List.replicate n (.error 0))).onError 0).1 :: [] := replies_append _ _ _
  have hclaimed := h _ _ _ _ _ hrun
  have hpaced := (reply_error _ _ _ _ _ hrun).delay
  rw [hclaimed, streakOf_replicate, delayOf, Nat.add_sub_cancel] at hpaced
  have hbig : 1000 ≤ 50 * 2 ^ n := by
    have hpow : 2 ^ 5 ≤ 2 ^ n := Nat.pow_le_pow_right (by decide) (by omega)
    omega
  have hsmall : n % 2 ^ 64 = 0 := by omega
  rw [hsmall, Nat.min_eq_right hbig] at hpaced
  exact absurd hpaced (by decide)

end Minilog.Server.ReceiveBackoff
