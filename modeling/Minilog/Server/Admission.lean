import Minilog.Lib.Transition
import Minilog.Server.EventLoop

/-! `AdmissionControl` of `admission.hpp` under any interleaving.

Every call of `admit` is a `Call`, from its first statement to the end of the token it returned; the calls run
on any threads. An action is one atomic operation: the load, a compare-exchange, each of the two drop
increments, a copy or a destruction of a token, the `fetch_sub` of `~Charge`, or `takeDropped`. What a call
computes between two of them is its own and is done with the first. The counters are 64 bits wide. -/
namespace Minilog.Server.Admission
open Lib
set_option autoImplicit false

/-! ## The calls -/

/-- Where a call of `admit`, or the token it returned, has got to. `trying` has found room for `expected` and
its own bytes; `over` has not, and `counted` has also added to `droppedWindow`; `charged` is about to make the
token; `held` has one copy of it and `others` more; `releasing` is in `~Charge` of the last. -/
inductive Stage where
  | entered
  | trying (expected : ℕ)
  | over
  | counted
  | refused
  | charged
  | held (others : ℕ)
  | releasing
  | released
deriving DecidableEq

structure Call where
  bytes : ℕ
  stage : Stage := .entered
deriving DecidableEq

structure Counters where
  inFlight : ℕ := 0
  droppedWindow : ℕ := 0
  droppedTotal : ℕ := 0
deriving DecidableEq

inductive Operation where
  | load
  | exchange (spurious : Bool)
  | countWindow
  | countTotal
  | makeToken
  | copy
  | destroy
  | release
deriving DecidableEq

/-- The test at the head of the loop, on the value just read. -/
def Call.test (budget : ℕ) (c : Call) (inFlight : ℕ) : Stage :=
  if budget < (inFlight + c.bytes) % 2 ^ 64 then .over else .trying inFlight

def Call.advance (budget : ℕ) (c : Call) (m : Counters) : Operation → Option (Stage × Counters)
  | .load =>
    match c.stage with
    | .entered => some (c.test budget m.inFlight, m)
    | _ => none
  | .exchange spurious =>
    match c.stage with
    | .trying expected =>
      if spurious ∨ m.inFlight ≠ expected then some (c.test budget m.inFlight, m)
      else some (.charged, { m with inFlight := (expected + c.bytes) % 2 ^ 64 })
    | _ => none
  | .countWindow =>
    match c.stage with
    | .over => some (.counted, { m with droppedWindow := (m.droppedWindow + 1) % 2 ^ 64 })
    | _ => none
  | .countTotal =>
    match c.stage with
    | .counted => some (.refused, { m with droppedTotal := (m.droppedTotal + 1) % 2 ^ 64 })
    | _ => none
  | .makeToken =>
    match c.stage with
    | .charged => some (.held 0, m)
    | _ => none
  | .copy =>
    match c.stage with
    | .held others => some (.held (others + 1), m)
    | _ => none
  | .destroy =>
    match c.stage with
    | .held 0 => some (.releasing, m)
    | .held (others + 1) => some (.held others, m)
    | _ => none
  | .release =>
    match c.stage with
    | .releasing => some (.released, { m with inFlight := (m.inFlight + (2 ^ 64 - c.bytes)) % 2 ^ 64 })
    | _ => none

/-- The call has not found out yet whether it is admitted. -/
def Call.Pending (c : Call) : Prop := c.stage = .entered ∨ ∃ expected, c.stage = .trying expected

/-- The bytes charged for the call: from the successful exchange to the `fetch_sub`. -/
def Call.charge (c : Call) : ℕ :=
  match c.stage with
  | .charged | .held _ | .releasing => c.bytes
  | _ => 0

/-- 1 for a refusal that has been counted. -/
def Call.drop (c : Call) : ℕ :=
  match c.stage with
  | .counted | .refused => 1
  | _ => 0

/-- 1 for a token with a living copy. -/
def Call.token (c : Call) : ℕ :=
  match c.stage with
  | .held _ => 1
  | _ => 0

/-- What an operation can do to its call and to the counters. -/
inductive Move (budget : ℕ) (c : Call) (m : Counters) : Operation → Stage → Counters → Prop where
  | tests (op : Operation) (hop : op ≠ .countWindow) (hc : c.Pending) :
    Move budget c m op (c.test budget m.inFlight) m
  | charges (hc : c.stage = .trying m.inFlight) :
      Move budget c m (.exchange false) .charged { m with inFlight := (m.inFlight + c.bytes) % 2 ^ 64 }
  | counts (hc : c.stage = .over) :
      Move budget c m .countWindow .counted { m with droppedWindow := (m.droppedWindow + 1) % 2 ^ 64 }
  | refuses (hc : c.stage = .counted) :
      Move budget c m .countTotal .refused { m with droppedTotal := (m.droppedTotal + 1) % 2 ^ 64 }
  | makes (hc : c.stage = .charged) : Move budget c m .makeToken (.held 0) m
  | copies (others : ℕ) (hc : c.stage = .held others) : Move budget c m .copy (.held (others + 1)) m
  | drops (others : ℕ) (hc : c.stage = .held (others + 1)) : Move budget c m .destroy (.held others) m
  | dropsLast (hc : c.stage = .held 0) : Move budget c m .destroy .releasing m
  | releases (hc : c.stage = .releasing) :
      Move budget c m .release .released { m with inFlight := (m.inFlight + (2 ^ 64 - c.bytes)) % 2 ^ 64 }

theorem advance_move (budget : ℕ) (c : Call) (m m' : Counters) (op : Operation) (st : Stage)
    (h : c.advance budget m op = some (st, m')) : Move budget c m op st m' := by
  cases op with
  | load =>
    simp only [Call.advance] at h
    split at h
    · next hc =>
      cases h
      exact .tests .load (by decide) (.inl hc)
    · cases h
  | exchange spurious =>
    simp only [Call.advance] at h
    split at h
    · next expected hc =>
      split at h
      · cases h
        exact .tests _ (by simp) (.inr ⟨expected, hc⟩)
      · next hsame =>
        cases h
        obtain ⟨hspurious, heq⟩ := not_or.mp hsame
        rw [Bool.not_eq_true] at hspurious
        rw [not_not] at heq
        rw [hspurious, ← heq]
        exact .charges (heq ▸ hc)
    · cases h
  | countWindow =>
    simp only [Call.advance] at h
    split at h
    · next hc =>
      cases h
      exact .counts hc
    · cases h
  | countTotal =>
    simp only [Call.advance] at h
    split at h
    · next hc =>
      cases h
      exact .refuses hc
    · cases h
  | makeToken =>
    simp only [Call.advance] at h
    split at h
    · next hc =>
      cases h
      exact .makes hc
    · cases h
  | copy =>
    simp only [Call.advance] at h
    split at h
    · next others hc =>
      cases h
      exact .copies others hc
    · cases h
  | destroy =>
    simp only [Call.advance] at h
    split at h
    · next hc =>
      cases h
      exact .dropsLast hc
    · next others hc =>
      cases h
      exact .drops others hc
    · cases h
  | release =>
    simp only [Call.advance] at h
    split at h
    · next hc =>
      cases h
      exact .releases hc
    · cases h

/-! ## The system -/

/-- `reports` are the values `takeDropped` has returned. -/
structure State where
  budget : ℕ
  counters : Counters := {}
  calls : List Call := []
  reports : List ℕ := []
deriving DecidableEq

inductive Action where
  | enter (bytes : ℕ)
  | call (i : ℕ) (op : Operation)
  | takeDropped
deriving DecidableEq

def Action.countsDrop : Action → Bool
  | .call _ .countWindow => true
  | _ => false

def start (budget : ℕ) : State := { budget }

def step (s : State) : Action → Option State
  | .enter bytes => some { s with calls := s.calls ++ [{ bytes }] }
  | .call i op =>
    match s.calls[i]? with
    | none => none
    | some c =>
      match c.advance s.budget s.counters op with
      | none => none
      | some (st, m) => some { s with counters := m, calls := s.calls.set i { c with stage := st } }
  | .takeDropped =>
    some { s with
      counters := { s.counters with droppedWindow := 0 }
      reports := s.reports ++ [s.counters.droppedWindow] }

def State.outstanding (s : State) : ℕ := total Call.charge s.calls

def State.refusals (s : State) : ℕ := total Call.drop s.calls

def State.tokens (s : State) : ℕ := total Call.token s.calls

theorem step_call (s s' : State) (i : ℕ) (op : Operation) (h : step s (.call i op) = some s') :
    ∃ c st m, s.calls[i]? = some c ∧ Move s.budget c s.counters op st m ∧
      s' = { s with counters := m, calls := s.calls.set i { c with stage := st } } := by
  simp only [step] at h
  split at h
  · cases h
  · next c hc =>
    split at h
    · cases h
    · next st m hadv =>
      cases h
      exact ⟨c, st, m, hc, advance_move _ _ _ _ _ _ hadv, rfl⟩

theorem step_budget (s s' : State) (a : Action) (h : step s a = some s') : s'.budget = s.budget := by
  cases a with
  | enter bytes =>
    cases h
    rfl
  | call i op =>
    obtain ⟨c, st, m, -, -, rfl⟩ := step_call s s' i op h
    rfl
  | takeDropped =>
    cases h
    rfl

/-! ## The accounts -/

/-- No sum of the budget and a size leaves 64 bits. -/
def Action.Fits (budget : ℕ) : Action → Prop
  | .enter bytes => budget + bytes < 2 ^ 64
  | _ => True

/-- `inFlight` is what is charged, within the budget; a call that tries has seen room for itself. -/
structure Exact (s : State) : Prop where
  fits : ∀ c ∈ s.calls, s.budget + c.bytes < 2 ^ 64
  charged : s.counters.inFlight = s.outstanding
  within : s.counters.inFlight ≤ s.budget
  room : ∀ c ∈ s.calls, ∀ expected, c.stage = .trying expected → expected + c.bytes ≤ s.budget

theorem exact_start (budget : ℕ) : Exact (start budget) where
  fits := by simp [start]
  charged := rfl
  within := Nat.zero_le _
  room := by simp [start]

theorem test_trying (budget : ℕ) (c : Call) (inFlight expected : ℕ)
    (h : c.test budget inFlight = .trying expected) (hfit : inFlight + c.bytes < 2 ^ 64) :
    expected + c.bytes ≤ budget := by
  unfold Call.test at h
  split at h
  · cases h
  · next hroom =>
    cases h
    rw [Nat.mod_eq_of_lt hfit] at hroom
    omega

theorem charge_pending (c : Call) (h : c.Pending) : c.charge = 0 := by
  unfold Call.charge
  rcases h with h | ⟨expected, h⟩
  · rw [h]
  · rw [h]

theorem charge_test (budget : ℕ) (c : Call) (inFlight : ℕ) :
    Call.charge { c with stage := c.test budget inFlight } = 0 := by
  unfold Call.charge Call.test
  split_ifs <;> rfl

/-- An operation changes `inFlight` as it changes the charge of its call. -/
theorem move_charge (s : State) (h : Exact s) (i : ℕ) (c : Call) (hi : s.calls[i]? = some c)
    (op : Operation) (st : Stage) (m : Counters) (hm : Move s.budget c s.counters op st m) :
    m.inFlight + c.charge = s.counters.inFlight + Call.charge { c with stage := st } ∧
    m.inFlight ≤ s.budget := by
  have hmem := List.mem_of_getElem? hi
  have hfit := h.fits c hmem
  have hwithin := h.within
  cases hm with
  | tests op hop hc =>
    rw [charge_pending c hc, charge_test]
    exact ⟨rfl, hwithin⟩
  | charges hc =>
    have hroom := h.room c hmem _ hc
    rw [charge_pending c (.inr ⟨_, hc⟩), Nat.mod_eq_of_lt (by omega)]
    exact ⟨rfl, hroom⟩
  | counts hc =>
    exact ⟨by simp only [Call.charge, hc], hwithin⟩
  | refuses hc =>
    exact ⟨by simp only [Call.charge, hc], hwithin⟩
  | makes hc =>
    exact ⟨by simp only [Call.charge, hc], hwithin⟩
  | copies others hc =>
    exact ⟨by simp only [Call.charge, hc], hwithin⟩
  | drops others hc =>
    exact ⟨by simp only [Call.charge, hc], hwithin⟩
  | dropsLast hc =>
    exact ⟨by simp only [Call.charge, hc], hwithin⟩
  | releases hc =>
    have hcharge : c.charge = c.bytes := by simp only [Call.charge, hc]
    have hle : c.bytes ≤ s.counters.inFlight := by
      rw [h.charged, ← hcharge]
      exact le_total _ _ c hmem
    have hback : (s.counters.inFlight + (2 ^ 64 - c.bytes)) % 2 ^ 64 = s.counters.inFlight - c.bytes := by omega
    rw [hback, hcharge]
    simp only [Call.charge]
    omega

theorem exact_step (s s' : State) (a : Action) (h : Exact s) (ha : a.Fits s.budget) (hs : step s a = some s') :
    Exact s' := by
  cases a with
  | enter bytes =>
    cases hs
    refine ⟨?_, ?_, h.within, ?_⟩
    · intro c hc
      rcases List.mem_append.mp hc with hc | hc
      · exact h.fits c hc
      · rw [List.mem_singleton.mp hc]
        exact ha
    · rw [State.outstanding, total_append, total_singleton]
      exact h.charged
    · intro c hc expected htry
      rcases List.mem_append.mp hc with hc | hc
      · exact h.room c hc expected htry
      · rw [List.mem_singleton.mp hc] at htry
        cases htry
  | call i op =>
    obtain ⟨c, st, m, hi, hm, rfl⟩ := step_call s s' i op hs
    have hmem := List.mem_of_getElem? hi
    obtain ⟨hcharge, hwithin⟩ := move_charge s h i c hi op st m hm
    have htotal := total_set Call.charge s.calls i c { c with stage := st } hi
    refine ⟨?_, ?_, hwithin, ?_⟩
    · intro d hd
      rcases List.mem_or_eq_of_mem_set hd with hd | rfl
      · exact h.fits d hd
      · exact h.fits c hmem
    · have hold := h.charged
      unfold State.outstanding at hold ⊢
      dsimp only
      omega
    · intro d hd expected htry
      rcases List.mem_or_eq_of_mem_set hd with hd | rfl
      · exact h.room d hd expected htry
      · -- only the test makes a call try
        have hfit := h.fits c hmem
        have hle := h.within
        cases hm with
        | tests op hop hc => exact test_trying s.budget c _ expected htry (by omega)
        | _ => cases htry
  | takeDropped =>
    cases hs
    exact ⟨h.fits, h.charged, h.within, h.room⟩

theorem exec_budget (budget : ℕ) (as : List Action) (s : State) (h : exec step (start budget) as = some s) :
    s.budget = budget := by
  refine exec_induct step (start budget) (fun _ s => s.budget = budget) rfl ?_ as s h
  intro _ t a t' _ ih hstep
  rw [step_budget t t' a hstep, ih]

theorem exec_exact (budget : ℕ) (as : List Action) (s : State) (h : exec step (start budget) as = some s)
    (hfit : ∀ a ∈ as, a.Fits budget) : Exact s := by
  have hinv := exec_invariant step (Action.Fits budget) (fun s => s.budget = budget ∧
    Exact s) ?_ (start budget) s as ⟨rfl, exact_start budget⟩ hfit h
  · exact hinv.2
  · rintro t a t' ⟨hb, ht⟩ ha hstep
    exact ⟨by rw [step_budget t t' a hstep, hb], exact_step t t' a ht (hb.symm ▸ ha) hstep⟩

/-- The call is admitted and the destruction of its last token copy has not ended. -/
def Call.Outstanding (c : Call) : Prop :=
  c.stage = .charged ∨ (∃ others, c.stage = .held others) ∨ c.stage = .releasing

theorem charge_settled (c : Call) (h : ¬ c.Outstanding) : c.charge = 0 := by
  unfold Call.charge
  split
  · next hc => exact absurd (.inl hc) h
  · next others hc => exact absurd (.inr (.inl ⟨others, hc⟩)) h
  · next hc => exact absurd (.inr (.inr hc)) h
  · rfl

/-! ## Refusals -/

/-- At some point of the run the call was still pending and its bytes did not fit beside those in flight. -/
def OverBudget (budget : ℕ) (as : List Action) (i bytes : ℕ) : Prop :=
  ∃ before s c, before <+: as ∧ exec step (start budget) before = some s ∧ s.calls[i]? = some c ∧ c.Pending ∧
    c.bytes = bytes ∧ budget < s.counters.inFlight + bytes

theorem OverBudget.append (budget : ℕ) (as bs : List Action) (i bytes : ℕ) (h : OverBudget budget as i bytes) :
    OverBudget budget (as ++ bs) i bytes := by
  obtain ⟨before, s, c, hpre, hrest⟩ := h
  exact ⟨before, s, c, hpre.trans (List.prefix_append as bs), hrest⟩

/-- The call has taken the way to a refusal. -/
def Call.Refused (c : Call) : Prop := c.stage = .over ∨ c.stage = .counted ∨ c.stage = .refused

theorem test_refused (budget : ℕ) (c d : Call) (inFlight : ℕ)
    (h : Call.Refused { d with stage := c.test budget inFlight }) :
    budget < inFlight + c.bytes := by
  unfold Call.Refused Call.test at h
  split at h
  · next hover => exact hover.trans_le (Nat.mod_le _ _)
  · rcases h with h | h | h <;> cases h

/-- A call that an operation leaves refused was so before, or the operation was its test. -/
theorem move_refused (budget : ℕ) (c : Call) (m m' : Counters) (op : Operation) (st : Stage)
    (h : Move budget c m op st m') (href : Call.Refused { c with stage := st }) :
    c.Refused ∨ (c.Pending ∧ budget < m.inFlight + c.bytes) := by
  cases h with
  | tests op hop hc => exact .inr ⟨hc, test_refused budget c c m.inFlight href⟩
  | counts hc => exact .inl (.inl hc)
  | refuses hc => exact .inl (.inr (.inl hc))
  | _ => rcases href with href | href | href <;> cases href

theorem exec_refused (budget : ℕ) (as : List Action) (s : State) (h : exec step (start budget) as = some s) :
    ∀ i c, s.calls[i]? = some c → c.Refused → OverBudget budget as i c.bytes := by
  refine exec_induct step (start budget) (fun as s => ∀ i c, s.calls[i]? = some c → c.Refused →
    OverBudget budget as i c.bytes) ?_ ?_ as s h
  · intro i c hc
    cases hc
  · intro as t a t' ht ih hstep i c hc href
    cases a with
    | enter bytes =>
      cases hstep
      by_cases hold : i < t.calls.length
      · rw [List.getElem?_append_left hold] at hc
        exact OverBudget.append _ _ _ _ _ (ih i c hc href)
      · rw [List.getElem?_append_right (by omega)] at hc
        have hnew := List.mem_singleton.mp (List.mem_of_getElem? hc)
        rw [hnew] at href
        rcases href with href | href | href <;> cases href
    | call j op =>
      obtain ⟨d, st, m, hj, hm, rfl⟩ := step_call t t' j op hstep
      by_cases hij : j = i
      · subst hij
        rw [List.getElem?_set_self (List.getElem?_eq_some_iff.mp hj).1] at hc
        cases hc
        rcases move_refused _ d _ _ _ _ hm href with hbefore | ⟨hpend, hover⟩
        · exact OverBudget.append _ _ _ _ _ (ih j d hj hbefore)
        · rw [exec_budget budget as t ht] at hover
          exact ⟨as, t, d, List.prefix_append _ _, ht, hj, hpend, rfl, hover⟩
      · rw [List.getElem?_set_ne hij] at hc
        exact OverBudget.append _ _ _ _ _ (ih i c hc href)
    | takeDropped =>
      cases hstep
      exact OverBudget.append _ _ _ _ _ (ih i c hc href)

/-! ## Reports -/

/-- Fewer than `2 ^ 64` refusals are counted between two reports. -/
def Reported (as : List Action) : Prop :=
  ∀ block, block <:+: as → .takeDropped ∉ block → block.countP Action.countsDrop < 2 ^ 64

/-- Only the first increment counts a refusal, in its call and in the window. -/
theorem move_drop (budget : ℕ) (c : Call) (m m' : Counters) (op : Operation) (st : Stage)
    (h : Move budget c m op st m') :
    (op = .countWindow ∧ Call.drop { c with stage := st } = c.drop + 1 ∧
      m'.droppedWindow = (m.droppedWindow + 1) % 2 ^ 64) ∨
      (op ≠ .countWindow ∧ Call.drop { c with stage := st } = c.drop ∧ m'.droppedWindow = m.droppedWindow) := by
  cases h with
  | tests op hop hc =>
    refine .inr ⟨hop, ?_, rfl⟩
    have hold : c.drop = 0 := by
      rcases hc with hc | ⟨expected, hc⟩
      · simp only [Call.drop, hc]
      · simp only [Call.drop, hc]
    rw [hold]
    unfold Call.drop Call.test
    split_ifs <;> rfl
  | charges hc => exact .inr ⟨by decide, by simp only [Call.drop, hc], rfl⟩
  | counts hc => exact .inl ⟨rfl, by simp only [Call.drop, hc], rfl⟩
  | refuses hc => exact .inr ⟨by decide, by simp only [Call.drop, hc], rfl⟩
  | makes hc => exact .inr ⟨by decide, by simp only [Call.drop, hc], rfl⟩
  | copies others hc => exact .inr ⟨by decide, by simp only [Call.drop, hc], rfl⟩
  | drops others hc => exact .inr ⟨by decide, by simp only [Call.drop, hc], rfl⟩
  | dropsLast hc => exact .inr ⟨by decide, by simp only [Call.drop, hc], rfl⟩
  | releases hc => exact .inr ⟨by decide, by simp only [Call.drop, hc], rfl⟩

/-- One action: a refusal is counted, the window is reported, or neither. -/
theorem step_drop (s s' : State) (a : Action) (h : step s a = some s') :
    (a.countsDrop = true ∧ s'.refusals = s.refusals + 1 ∧ s'.reports = s.reports ∧
        s'.counters.droppedWindow = (s.counters.droppedWindow + 1) % 2 ^ 64) ∨
      (a = .takeDropped ∧ s'.refusals = s.refusals ∧ s'.reports = s.reports ++ [s.counters.droppedWindow] ∧
        s'.counters.droppedWindow = 0) ∨
      (a.countsDrop = false ∧ a ≠ .takeDropped ∧ s'.refusals = s.refusals ∧ s'.reports = s.reports ∧
        s'.counters.droppedWindow = s.counters.droppedWindow) := by
  cases a with
  | enter bytes =>
    cases h
    refine .inr (.inr ⟨rfl, by simp, ?_, rfl, rfl⟩)
    rw [State.refusals, total_append, total_singleton]
    rfl
  | call i op =>
    obtain ⟨c, st, m, hi, hm, rfl⟩ := step_call s s' i op h
    have htotal := total_set Call.drop s.calls i c { c with stage := st } hi
    unfold State.refusals
    rcases move_drop s.budget c s.counters m op st hm with ⟨rfl, hdrop, hwindow⟩ | ⟨hop, hdrop, hwindow⟩
    · exact .inl ⟨rfl, by dsimp only; omega, rfl, hwindow⟩
    · refine .inr (.inr ⟨?_, by simp, by dsimp only; omega, rfl, hwindow⟩)
      cases op with
      | countWindow => exact absurd rfl hop
      | _ => rfl
  | takeDropped =>
    cases h
    exact .inr (.inl ⟨rfl, rfl, rfl, rfl⟩)

/-- The window holds the refusals counted since the last report. -/
theorem exec_reported (budget : ℕ) (as : List Action) (s : State) (h : exec step (start budget) as = some s)
    (hrep : Reported as) : s.reports.sum + s.counters.droppedWindow = s.refusals := by
  have hinv := exec_induct step (start budget) (fun as s => Reported as →
    s.reports.sum + s.counters.droppedWindow = s.refusals ∧
    ∃ block, block <:+ as ∧ .takeDropped ∉ block ∧
    s.counters.droppedWindow = block.countP Action.countsDrop) ?_ ?_ as s h
  · exact (hinv hrep).1
  · intro _
    exact ⟨rfl, [], List.nil_suffix, List.not_mem_nil, rfl⟩
  · intro as t a t' _ ih hstep hrep
    have hshort : Reported as := fun block hb => hrep block (hb.trans (List.infix_append [] as [a]))
    obtain ⟨hsum, block, hsuffix, hnone, hwindow⟩ := ih hshort
    have hlonger : block ++ [a] <:+ as ++ [a] := by
      obtain ⟨before, rfl⟩ := hsuffix
      exact ⟨before, by rw [List.append_assoc]⟩
    have hcount : (block ++ [a]).countP Action.countsDrop = block.countP Action.countsDrop + if a.countsDrop
        then 1 else 0 := by
      rw [List.countP_append, List.countP_singleton]
    rcases step_drop t t' a hstep with ⟨ha, href, hr, hw⟩ | ⟨rfl, href, hr, hw⟩ | ⟨ha, hne, href, hr, hw⟩
    · have hnone' : .takeDropped ∉ block ++ [a] := by
        intro hmem
        rcases List.mem_append.mp hmem with hmem | hmem
        · exact hnone hmem
        · rw [← List.mem_singleton.mp hmem] at ha
          cases ha
      have hlt := hrep (block ++ [a]) hlonger.isInfix hnone'
      rw [hcount, if_pos ha] at hlt
      rw [Nat.mod_eq_of_lt (by omega)] at hw
      refine ⟨by rw [hr, hw, href]; omega, block ++ [a], hlonger, hnone', ?_⟩
      rw [hcount, if_pos ha, hw, hwindow]
    · refine ⟨?_, [], List.nil_suffix, List.not_mem_nil, hw⟩
      rw [hr, hw, href, List.sum_append, List.sum_singleton]
      exact hsum
    · refine ⟨by rw [hr, hw, href]; exact hsum, block ++ [a], hlonger, ?_, ?_⟩
      · intro hmem
        rcases List.mem_append.mp hmem with hmem | hmem
        · exact hnone hmem
        · exact hne (List.mem_singleton.mp hmem).symm
      · rw [hcount, ha, hw, hwindow]
        rfl

/-- Without any bound, they agree as 64 bit numbers. -/
theorem exec_reported_mod (budget : ℕ) (as : List Action) (s : State)
    (h : exec step (start budget) as = some s) :
    (s.reports.sum + s.counters.droppedWindow) % 2 ^ 64 = s.refusals % 2 ^ 64 := by
  refine exec_induct step (start budget) (fun _ s => (s.reports.sum + s.counters.droppedWindow) % 2 ^ 64 =
    s.refusals % 2 ^ 64)
    rfl ?_ as s h
  intro _ t a t' _ ih hstep
  rcases step_drop t t' a hstep with ⟨-, href, hr, hw⟩ | ⟨-, href, hr, hw⟩ | ⟨-, -, href, hr, hw⟩
  · rw [hr, hw, href, Nat.add_mod_mod, ← Nat.add_assoc, Nat.add_mod, ih, ← Nat.add_mod]
  · rw [hr, hw, href, List.sum_append, List.sum_singleton, Nat.add_zero]
    exact ih
  · rw [hr, hw, href]
    exact ih

/-! ## One call at a time -/

/-- `admit` without interruption, where there is room. -/
def admission (i bytes : ℕ) : List Action :=
  [.enter bytes, .call i .load, .call i (.exchange false), .call i .makeToken]

/-- `admit` without interruption, where there is none. -/
def refusal (i bytes : ℕ) : List Action :=
  [.enter bytes, .call i .load, .call i .countWindow, .call i .countTotal]

/-- One call more, with the counters as it leaves them. -/
def State.push (s : State) (m : Counters) (c : Call) : State :=
  { s with counters := m, calls := s.calls ++ [c] }

theorem push_call (s : State) (m m' : Counters) (c : Call) (op : Operation) (st : Stage)
    (h : c.advance s.budget m op = some (st, m')) :
    step (s.push m c) (.call s.calls.length op) = some (s.push m' { c with stage := st }) := by
  have hlast : (s.push m c).calls[s.calls.length]? = some c := by
    rw [State.push, List.getElem?_append_right (Nat.le_refl _), Nat.sub_self, List.getElem?_cons_zero]
  have hset : (s.push m c).calls.set s.calls.length { c with stage := st } = s.calls ++
      [{ c with stage := st }] := by
    rw [State.push, List.set_append_right _ _ (Nat.le_refl _), Nat.sub_self, List.set_cons_zero]
  have hadv : c.advance (s.push m c).budget (s.push m c).counters op = some (st, m') := h
  simp only [step, hlast, hadv, hset]
  rfl

theorem admission_run (s : State) (bytes : ℕ) (hroom : (s.counters.inFlight + bytes) % 2 ^ 64 ≤ s.budget) :
    exec step s (admission s.calls.length bytes) =
      some (s.push { s.counters with inFlight := (s.counters.inFlight + bytes) % 2 ^ 64 } ⟨bytes,
        .held 0⟩) := by
  have hload : Call.advance s.budget ⟨bytes, .entered⟩ s.counters .load =
      some (.trying s.counters.inFlight, s.counters) := by
    simp only [Call.advance, Call.test, if_neg (Nat.not_lt.mpr hroom)]
  have hexchange : Call.advance s.budget ⟨bytes, .trying s.counters.inFlight⟩ s.counters (.exchange false) =
      some (.charged, { s.counters with inFlight := (s.counters.inFlight + bytes) % 2 ^ 64 }) := by
    simp [Call.advance]
  have henter : step s (.enter bytes) = some (s.push s.counters ⟨bytes, .entered⟩) := rfl
  rw [admission, exec_cons step _ _ _ _ henter, exec_cons step _ _ _ _ (push_call s _ _ _ _ _ hload),
    exec_cons step _ _ _ _ (push_call s _ _ _ _ _ hexchange),
    exec_cons step _ _ _ _ (push_call s _ _ _ .makeToken _ rfl), exec_nil]

theorem refusal_run (s : State) (bytes : ℕ) (hover : s.budget < (s.counters.inFlight + bytes) % 2 ^ 64) :
    exec step s (refusal s.calls.length bytes) = some (s.push
      ⟨s.counters.inFlight, (s.counters.droppedWindow + 1) % 2 ^ 64, (s.counters.droppedTotal + 1) % 2 ^ 64⟩
      ⟨bytes, .refused⟩) := by
  have hload : Call.advance s.budget ⟨bytes, .entered⟩ s.counters .load = some (.over, s.counters) := by
    simp only [Call.advance, Call.test, if_pos hover]
  have henter : step s (.enter bytes) = some (s.push s.counters ⟨bytes, .entered⟩) := rfl
  rw [refusal, exec_cons step _ _ _ _ henter, exec_cons step _ _ _ _ (push_call s _ _ _ _ _ hload),
    exec_cons step _ _ _ _ (push_call s _ _ _ .countWindow _ rfl),
    exec_cons step _ _ _ _ (push_call s _ _ _ .countTotal _ rfl), exec_nil]

/-- The event loop charges a datagram as such a call does. -/
theorem charge_run (a : AdmissionControl) (s : State) (bytes : ℕ) (hbudget : s.budget = a.budget)
    (hflight : s.counters.inFlight = a.inFlight) :
    ∃ s', exec step s (if (a.charge bytes).1 then admission s.calls.length bytes
      else refusal s.calls.length bytes) = some s' ∧
      s'.counters.inFlight = (a.charge bytes).2.inFlight := by
  unfold AdmissionControl.charge
  by_cases hover : a.budget < (a.inFlight + bytes) % 2 ^ 64
  · rw [if_pos hover, if_neg Bool.false_ne_true]
    exact ⟨_, refusal_run s bytes (by rw [hbudget, hflight]; exact hover), hflight⟩
  · rw [if_neg hover, if_pos rfl]
    refine ⟨_, admission_run s bytes (by rw [hbudget, hflight]; omega), ?_⟩
    rw [hflight]
    rfl

/-! ## Every interleaving -/

theorem accounts_exact (budget : ℕ) (as : List Action) (s : State) (h : exec step (start budget) as = some s)
    (hfit : ∀ a ∈ as, a.Fits budget) :
    s.counters.inFlight = s.outstanding ∧ s.counters.inFlight ≤ budget ∧
      (∀ i c, s.calls[i]? = some c → c.Refused → OverBudget budget as i c.bytes) ∧
      (Reported as → s.reports.sum + s.counters.droppedWindow = s.refusals) ∧
      (s.reports.sum + s.counters.droppedWindow) % 2 ^ 64 = s.refusals % 2 ^ 64 ∧
      ((∀ c ∈ s.calls, ¬ c.Outstanding) → s.counters.inFlight = 0) := by
  have hexact := exec_exact budget as s h hfit
  refine ⟨hexact.charged, ?_, exec_refused budget as s h, exec_reported budget as s h,
    exec_reported_mod budget as s h, ?_⟩
  · rw [← exec_budget budget as s h]
    exact hexact.within
  · intro hnone
    rw [hexact.charged]
    exact total_eq_zero _ _ fun c hc => charge_settled c (hnone c hc)

/-- Two datagrams race for a budget of 10; the one that loses is counted and reported, the token of the other
is copied and both copies go. -/
def race : List Action :=
  [.enter 6, .enter 7, .call 0 .load, .call 1 .load, .call 1 (.exchange true), .call 1 (.exchange false),
    .call 0 (.exchange false), .call 1 .makeToken, .call 0 .countWindow, .call 1 .copy, .takeDropped,
    .call 1 .destroy, .call 0 .countTotal, .call 1 .destroy, .call 1 .release]

def raced : State where
  budget := 10
  counters := ⟨0, 0, 1⟩
  calls := [⟨6, .refused⟩, ⟨7, .released⟩]
  reports := [1]

theorem accounts_exact_race :
    exec step (start 10) race = some raced ∧ raced.counters.inFlight = raced.outstanding ∧
      OverBudget 10 race 0 6 ∧ raced.reports.sum + raced.counters.droppedWindow = raced.refusals ∧
      raced.counters.inFlight = 0 := by
  have hrun : exec step (start 10) race = some raced := by decide
  have hfit : ∀ a ∈ race, a.Fits 10 := by simp [race, Action.Fits]
  have hrep : Reported race := fun block hb _ =>
    (List.countP_le_length.trans hb.length_le).trans_lt (by decide)
  obtain ⟨hflight, -, hover, hsum, -, hzero⟩ := accounts_exact 10 race raced hrun hfit
  refine ⟨hrun, hflight, hover 0 ⟨6, .refused⟩ rfl (.inr (.inr rfl)), hsum hrep, hzero ?_⟩
  simp [raced, Call.Outstanding]

/-! ## The width of the window -/

/-- `n` datagrams of 2 bytes against a budget of 1. -/
def oversized : ℕ → List Action
  | 0 => []
  | n + 1 => oversized n ++ refusal n 2

def afterOversized (n : ℕ) : State where
  budget := 1
  counters := ⟨0, n % 2 ^ 64, n % 2 ^ 64⟩
  calls := List.replicate n ⟨2, .refused⟩

theorem oversized_run (n : ℕ) : exec step (start 1) (oversized n) = some (afterOversized n) := by
  induction n with
  | zero => rfl
  | succ n ih =>
    have hlast := refusal_run (afterOversized n) 2 (show 1 < (0 + 2) % 2 ^ 64 by decide)
    rw [show (afterOversized n).calls.length = n from List.length_replicate] at hlast
    rw [oversized, exec_append, ih, Option.bind_some, hlast]
    simp only [afterOversized, State.push, Nat.mod_add_mod, List.replicate_succ']

theorem oversized_fits (n : ℕ) : ∀ a ∈ oversized n, a.Fits 1 := by
  induction n with
  | zero => simp [oversized]
  | succ n ih =>
    intro a ha
    rcases List.mem_append.mp ha with ha | ha
    · exact ih a ha
    · simp only [refusal, List.mem_cons, List.not_mem_nil, or_false] at ha
      rcases ha with rfl | rfl | rfl | rfl <;> simp [Action.Fits]

theorem afterOversized_refusals (n : ℕ) : (afterOversized n).refusals = n := by
  rw [State.refusals, afterOversized, total_replicate]
  exact Nat.mul_one n

/-- The window is back at 0 when it has counted `2 ^ 64` refusals. -/
theorem window_wraps :
    ¬ ∀ budget as s, exec step (start budget) as = some s → (∀ a ∈ as, a.Fits budget) →
      s.reports.sum + s.counters.droppedWindow = s.refusals := by
  intro h
  have hmod : ∀ n : ℕ, n % 2 ^ 64 = n := by
    intro n
    have hn := h 1 (oversized n) (afterOversized n) (oversized_run n) (oversized_fits n)
    rw [afterOversized_refusals] at hn
    simpa [afterOversized] using hn
  have hwrap := hmod (2 ^ 64)
  norm_num at hwrap

end Minilog.Server.Admission
