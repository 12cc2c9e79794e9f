import Minilog.Server.Admission

/-! How many admitted messages there can be at a time.

`admit` charges the bytes of a datagram, and a message is held for as long as a copy of its token is. So the
budget bounds the number of messages of at least one byte; a datagram without bytes is charged nothing,
whatever else is held. -/
namespace Minilog.Server.Admission
open Lib
set_option autoImplicit false

/-- The sizes a UDP datagram can have. -/
def Action.Datagram : Action → Prop
  | .enter bytes => bytes ≤ 65507
  | _ => True

/-- The datagram carries at least one byte, and its size beside the budget fits into 64 bits. -/
def Action.Charged (budget : ℕ) : Action → Prop
  | .enter bytes => 1 ≤ bytes ∧ budget + bytes < 2 ^ 64
  | _ => True

/-- 1 for a call about a datagram without bytes. -/
def Call.empty (c : Call) : ℕ := if c.bytes = 0 then 1 else 0

theorem token_le (c : Call) : c.token ≤ c.charge + c.empty := by
  unfold Call.token
  split
  · next others hc =>
    simp only [Call.charge, Call.empty, hc]
    split_ifs <;> omega
  · exact Nat.zero_le _

/-- Messages beyond the budget are those of empty datagrams. -/
theorem tokens_le (budget : ℕ) (as : List Action) (s : State) (h : exec step (start budget) as = some s)
    (hfit : ∀ a ∈ as, a.Fits budget) : s.tokens ≤ budget + total Call.empty s.calls := by
  have hexact := exec_exact budget as s h hfit
  have hcharged := hexact.charged
  have hwithin := hexact.within
  rw [exec_budget budget as s h] at hwithin
  calc s.tokens ≤ total (fun c => c.charge + c.empty) s.calls := total_mono _ _ _ fun c _ => token_le c
    _ = s.outstanding + total Call.empty s.calls := total_add _ _ _
    _ ≤ budget + total Call.empty s.calls := by omega

theorem calls_nonempty (budget : ℕ) (as : List Action) (s : State) (h : exec step (start budget) as = some s)
    (hok : ∀ a ∈ as, a.Charged budget) : ∀ c ∈ s.calls, 1 ≤ c.bytes := by
  refine exec_invariant step (Action.Charged budget) (fun s => ∀ c ∈ s.calls,
    1 ≤ c.bytes) ?_ (start budget) s as (by simp [start]) hok h
  intro t a t' ih ha hstep c hc
  cases a with
  | enter bytes =>
    cases hstep
    rcases List.mem_append.mp hc with hc | hc
    · exact ih c hc
    · rw [List.mem_singleton.mp hc]
      exact ha.1
  | call i op =>
    obtain ⟨d, st, m, hi, -, rfl⟩ := step_call t t' i op hstep
    rcases List.mem_or_eq_of_mem_set hc with hc | rfl
    · exact ih c hc
    · exact ih d (List.mem_of_getElem? hi)
  | takeDropped =>
    cases hstep
    exact ih c hc

/-- However the messages are copied, processed and delayed, no more are held than the budget has bytes. -/
theorem tokens_le_budget (budget : ℕ) (as : List Action) (s : State) (h : exec step (start budget) as = some s)
    (hok : ∀ a ∈ as, a.Charged budget) : s.tokens ≤ budget := by
  have hfit : ∀ a ∈ as, a.Fits budget := by
    intro a ha
    have hcharged := hok a ha
    cases a with
    | enter bytes => exact hcharged.2
    | _ => trivial
  have hempty : total Call.empty s.calls = 0 := by
    refine total_eq_zero _ _ fun c hc => if_neg ?_
    have hbytes := calls_nonempty budget as s h hok c hc
    omega
  have hle := tokens_le budget as s h hfit
  omega

/-- A budget of 2 is used up by two messages of one byte; the third is refused. -/
def filled : List Action := admission 0 1 ++ admission 1 1 ++ refusal 2 1

def afterFilled : State where
  budget := 2
  counters := ⟨2, 1, 1⟩
  calls := [⟨1, .held 0⟩, ⟨1, .held 0⟩, ⟨1, .refused⟩]

theorem tokens_le_budget_filled :
    exec step (start 2) filled = some afterFilled ∧ afterFilled.tokens = 2 ∧ afterFilled.tokens ≤ 2 := by
  have hrun : exec step (start 2) filled = some afterFilled := by decide
  exact ⟨hrun, by decide, tokens_le_budget 2 filled afterFilled hrun (by simp [filled, admission, refusal,
    Action.Charged])⟩

/-! ## Datagrams without bytes -/

def empties : ℕ → List Action
  | 0 => []
  | n + 1 => empties n ++ admission n 0

def afterEmpties (budget n : ℕ) : State where
  budget := budget
  calls := List.replicate n ⟨0, .held 0⟩

theorem empties_run (budget n : ℕ) : exec step (start budget) (empties n) = some (afterEmpties budget n) := by
  induction n with
  | zero => rfl
  | succ n ih =>
    have hlast := admission_run (afterEmpties budget n) 0 (Nat.zero_le _)
    rw [show (afterEmpties budget n).calls.length = n from List.length_replicate] at hlast
    rw [empties, exec_append, ih, Option.bind_some, hlast]
    simp only [afterEmpties, State.push, List.replicate_succ']
    rfl

theorem empties_datagrams (n : ℕ) : ∀ a ∈ empties n, a.Datagram := by
  induction n with
  | zero => simp [empties]
  | succ n ih =>
    intro a ha
    rcases List.mem_append.mp ha with ha | ha
    · exact ih a ha
    · simp only [admission, List.mem_cons, List.not_mem_nil, or_false] at ha
      rcases ha with rfl | rfl | rfl | rfl <;> simp [Action.Datagram]

theorem afterEmpties_tokens (budget n : ℕ) : (afterEmpties budget n).tokens = n := by
  rw [State.tokens, afterEmpties, total_replicate]
  exact Nat.mul_one n

/-- With the default budget of 16 MiB there is no bound for the messages held. -/
theorem empties_unbounded :
    ¬ ∃ bound, ∀ as s, exec step (start (16 * 1024 * 1024)) as = some s → (∀ a ∈ as, a.Datagram) →
    s.tokens ≤ bound := by
  rintro ⟨bound, h⟩
  have hmore := h (empties (bound + 1)) _ (empties_run _ (bound + 1)) (empties_datagrams (bound + 1))
  rw [afterEmpties_tokens] at hmore
  omega

end Minilog.Server.Admission
