import Minilog.Lib.Transition
import Mathlib.Algebra.Order.Group.Multiset
import Mathlib.Tactic.Abel

/-! Messages that are posted to several queues by a pool of workers.

A message that is accepted waits until a worker takes it; the worker posts it to the queues `targets` lists,
one after the other, and each queue is served in its own order. What is `meant` for a queue has been handled
there, is in the queue, is still `due` or was lost in a job that broke off (`exec_delivers`); with one worker
it arrives in the order of acceptance (`exec_ordered`). -/
namespace Minilog.Lib
set_option autoImplicit false

variable {μ τ : Type} [DecidableEq τ]

/-- A message that a worker has taken, and the queues it has not posted it to yet. -/
structure Job (μ τ : Type) where
  msg : μ
  rest : List τ

structure Network (μ τ : Type) where
  accepted : List μ := []
  waiting : List μ := []
  running : List (Job μ τ) := []
  queued : τ → List μ := fun _ => []
  handled : τ → List μ := fun _ => []
  lost : τ → List μ := fun _ => []

inductive Move (μ τ : Type) where
  | accept (m : μ)
  | take
  | post (i : ℕ)
  | abort (i : ℕ)
  | handle (t : τ)

def Move.isAbort : Move μ τ → Bool
  | .abort _ => true
  | _ => false

/-- One copy for each time the queue is listed. -/
def copies (t : τ) (m : μ) (ts : List τ) : List μ := List.replicate (ts.count t) m

theorem copies_nil (t : τ) (m : μ) : copies t m [] = [] := rfl

theorem copies_cons (t u : τ) (m : μ) (ts : List τ) :
    copies t m (u :: ts) = (if u = t then [m] else []) ++ copies t m ts := by
  unfold copies
  rw [List.count_cons]
  by_cases h : u = t
  · rw [if_pos h, if_pos (beq_iff_eq.mpr h), List.replicate_succ]
    rfl
  · rw [if_neg h, if_neg (by simpa using h)]
    rfl

/-- A queue that is listed once at most. -/
theorem copies_nodup (t : τ) (m : μ) (ts : List τ) (h : ts.Nodup) :
    copies t m ts = if t ∈ ts then [m] else [] := by
  unfold copies
  split_ifs with hmem
  · rw [List.count_eq_one_of_mem h hmem]
    rfl
  · rw [List.count_eq_zero_of_not_mem hmem]
    rfl

namespace Network

variable (targets : μ → List τ) (workers : ℕ)

/-- A job that has made its last post ends; one that is aborted makes no more. -/
def step (s : Network μ τ) : Move μ τ → Option (Network μ τ)
  | .accept m => some { s with accepted := s.accepted ++ [m], waiting := s.waiting ++ [m] }
  | .take =>
    match s.waiting with
    | [] => none
    | m :: waiting =>
      if s.running.length < workers then
        some { s with waiting := waiting, running := s.running ++ [⟨m, targets m⟩] } else none
  | .post i =>
    match s.running[i]? with
    | none => none
    | some ⟨_, []⟩ => some { s with running := s.running.eraseIdx i }
    | some ⟨m, t :: rest⟩ =>
      some { s with
        running := s.running.set i ⟨m, rest⟩
        queued := Function.update s.queued t (s.queued t ++ [m]) }
  | .abort i =>
    match s.running[i]? with
    | none => none
    | some job =>
      some { s with running := s.running.eraseIdx i, lost := fun t => s.lost t ++ copies t job.msg job.rest }
  | .handle t =>
    match s.queued t with
    | [] => none
    | m :: queued =>
      some { s with
        queued := Function.update s.queued t queued
        handled := Function.update s.handled t (s.handled t ++ [m]) }

/-- What has still to be posted to a queue, of a job and of a message nobody has taken. -/
def due (s : Network μ τ) (t : τ) : List μ :=
  (s.running.flatMap fun job => copies t job.msg job.rest) ++ s.waiting.flatMap fun m => copies t m (targets m)

/-- What the accepted messages are to bring a queue. -/
def meant (s : Network μ τ) (t : τ) : List μ := s.accepted.flatMap fun m => copies t m (targets m)

/-- Everything that is known of what is meant for a queue. -/
def ledger (s : Network μ τ) (t : τ) : List μ := s.handled t ++ s.queued t ++ s.due targets t ++ s.lost t

theorem meant_nodup (s : Network μ τ) (t : τ) (h : ∀ m, (targets m).Nodup) :
    s.meant targets t = s.accepted.filter fun m => t ∈ targets m := by
  unfold meant
  induction s.accepted with
  | nil => rfl
  | cons m ms ih =>
    rw [List.flatMap_cons, ih, copies_nodup t m _ (h m)]
    by_cases ht : t ∈ targets m
    · rw [if_pos ht, List.filter_cons_of_pos (by simpa using ht)]
      rfl
    · rw [if_neg ht, List.filter_cons_of_neg (by simpa using ht)]
      rfl

/-! ## What a move does -/

/-- A member of a list, and the lists that replace it or leave it out. -/
theorem split_at {α : Type} (l : List α) (i : ℕ) (a : α) (h : l[i]? = some a) :
    ∃ pre post, l = pre ++ a :: post ∧ l.eraseIdx i = pre ++ post ∧ ∀ b, l.set i b = pre ++ b :: post := by
  obtain ⟨hlt, ha⟩ := List.getElem?_eq_some_iff.mp h
  refine ⟨l.take i, l.drop (i + 1), ?_, List.eraseIdx_eq_take_drop_succ l i, fun b => ?_⟩
  · rw [← ha, List.getElem_cons_drop, List.take_append_drop]
  · rw [List.set_eq_take_append_cons_drop, if_pos hlt]

theorem step_cases (s s' : Network μ τ) (a : Move μ τ) (h : step targets workers s a = some s') :
    (∃ m, a = .accept m ∧ s' = { s with accepted := s.accepted ++ [m], waiting := s.waiting ++ [m] }) ∨
    (∃ m waiting, a = .take ∧ s.waiting = m :: waiting ∧ s.running.length < workers ∧
      s' = { s with waiting := waiting, running := s.running ++ [⟨m, targets m⟩] }) ∨
    (∃ i m pre post, a = .post i ∧ s.running = pre ++ ⟨m, []⟩ :: post ∧
      s' = { s with running := pre ++ post }) ∨
    (∃ i m t rest pre post, a = .post i ∧ s.running = pre ++ ⟨m, t :: rest⟩ :: post ∧
      s' = { s with
        running := pre ++ ⟨m, rest⟩ :: post, queued := Function.update s.queued t (s.queued t ++ [m]) }) ∨
    (∃ i job pre post, a = .abort i ∧ s.running = pre ++ job :: post ∧
      s' = { s with running := pre ++ post, lost := fun t => s.lost t ++ copies t job.msg job.rest }) ∨
    (∃ t m queued, a = .handle t ∧ s.queued t = m :: queued ∧
      s' = { s with
        queued := Function.update s.queued t queued
        handled := Function.update s.handled t (s.handled t ++ [m]) }) := by
  cases a with
  | accept m =>
    cases h
    exact .inl ⟨m, rfl, rfl⟩
  | take =>
    unfold step at h
    dsimp only at h
    split at h
    · cases h
    · next m waiting hwaiting =>
      split_ifs at h with hfree
      cases h
      exact .inr (.inl ⟨m, waiting, rfl, hwaiting, hfree, rfl⟩)
  | post i =>
    unfold step at h
    dsimp only at h
    split at h
    · cases h
    · next m hi =>
      obtain ⟨pre, post, hsplit, herase, -⟩ := split_at _ _ _ hi
      cases h
      exact .inr (.inr (.inl ⟨i, m, pre, post, rfl, hsplit, by rw [herase]⟩))
    · next m t rest hi =>
      obtain ⟨pre, post, hsplit, -, hset⟩ := split_at _ _ _ hi
      cases h
      exact .inr (.inr (.inr (.inl ⟨i, m, t, rest, pre, post, rfl, hsplit, by rw [hset]⟩)))
  | abort i =>
    unfold step at h
    dsimp only at h
    split at h
    · cases h
    · next job hi =>
      obtain ⟨pre, post, hsplit, herase, -⟩ := split_at _ _ _ hi
      cases h
      exact .inr (.inr (.inr (.inr (.inl ⟨i, job, pre, post, rfl, hsplit, by rw [herase]⟩))))
  | handle t =>
    unfold step at h
    dsimp only at h
    split at h
    · cases h
    · next m queued hqueued =>
      cases h
      exact .inr (.inr (.inr (.inr (.inr ⟨t, m, queued, rfl, hqueued, rfl⟩))))

/-- Only its own turn adds to what a queue has handled, and that is what stood first. -/
theorem step_handled (s s' : Network μ τ) (a : Move μ τ) (t : τ) (h : step targets workers s a = some s') :
    (∃ m queued, a = .handle t ∧ s.queued t = m :: queued ∧ s'.handled t = s.handled t ++ [m]) ∨
      (a ≠ .handle t ∧ s'.handled t = s.handled t) := by
  obtain ⟨m, rfl, rfl⟩ | ⟨m, waiting, rfl, -, -, rfl⟩ | ⟨i, m, pre, post, rfl, -, rfl⟩ |
      ⟨i, m, u, rest, pre, post, rfl, -, rfl⟩ |
    ⟨i, job, pre, post, rfl, -, rfl⟩ | ⟨u, m, queued, rfl, hqueued, rfl⟩ := step_cases targets workers s s' a h
  · exact .inr ⟨nofun, rfl⟩
  · exact .inr ⟨nofun, rfl⟩
  · exact .inr ⟨nofun, rfl⟩
  · exact .inr ⟨nofun, rfl⟩
  · exact .inr ⟨nofun, rfl⟩
  · by_cases hu : t = u
    · subst hu
      exact .inl ⟨m, queued, rfl, hqueued, Function.update_self ..⟩
    · refine .inr ⟨fun heq => ?_, Function.update_of_ne hu _ _⟩
      injection heq with heq
      exact hu heq.symm

/-! ## Nothing is lost, and nothing comes twice -/

theorem step_delivers (s s' : Network μ τ) (a : Move μ τ) (t : τ)
    (hs : (s.ledger targets t).Perm (s.meant targets t)) (h : step targets workers s a = some s') :
    (s'.ledger targets t).Perm (s'.meant targets t) := by
  simp only [← Multiset.coe_eq_coe, ledger, due, meant, ← Multiset.coe_add] at hs ⊢
  obtain ⟨m, rfl, rfl⟩ | ⟨m, waiting, rfl, hwaiting, -, rfl⟩ | ⟨i, m, pre, post, rfl, hrunning, rfl⟩ |
    ⟨i, m, u, rest, pre, post, rfl, hrunning, rfl⟩ | ⟨i, job, pre, post, rfl, hrunning, rfl⟩ |
    ⟨u, m, queued, rfl, hqueued, rfl⟩ :=
    step_cases targets workers s s' a h
  · simp only [List.flatMap_append, List.flatMap_singleton, ← Multiset.coe_add]
    rw [← hs]
    abel
  · rw [hwaiting, List.flatMap_cons] at hs
    rw [← hs]
    simp only [List.flatMap_append, List.flatMap_singleton, ← Multiset.coe_add]
    abel
  · rw [hrunning, List.flatMap_append, List.flatMap_cons] at hs
    rw [← hs]
    simp only [List.flatMap_append, ← Multiset.coe_add, copies_nil, Multiset.coe_nil, zero_add]
  · rw [hrunning, List.flatMap_append, List.flatMap_cons, copies_cons] at hs
    rw [← hs]
    simp only [List.flatMap_append, List.flatMap_cons, ← Multiset.coe_add]
    by_cases hu : u = t
    · rw [hu, Function.update_self, if_pos rfl, ← Multiset.coe_add]
      abel
    · rw [Function.update_of_ne (Ne.symm hu), if_neg hu, Multiset.coe_nil, zero_add]
  · rw [hrunning, List.flatMap_append, List.flatMap_cons] at hs
    rw [← hs]
    simp only [List.flatMap_append, ← Multiset.coe_add]
    abel
  · rw [← hs]
    dsimp only
    by_cases hu : u = t
    · have hfront : m :: queued = [m] ++ queued := rfl
      rw [← hu, hqueued, Function.update_self, Function.update_self, hfront, ← Multiset.coe_add,
        ← Multiset.coe_add]
      abel
    · rw [Function.update_of_ne (Ne.symm hu), Function.update_of_ne (Ne.symm hu)]

/-- In every run, what is meant for a queue is there once, or lost with a job that broke off. -/
theorem exec_delivers (as : List (Move μ τ)) (s : Network μ τ)
    (h : exec (step targets workers) {} as = some s) (t : τ) :
    (s.ledger targets t).Perm (s.meant targets t) :=
  exec_invariant (step targets workers) (fun _ => True) (fun s => (s.ledger targets t).Perm (s.meant targets t))
    (fun u a u' hu _ hstep => step_delivers targets workers u u' a t hu hstep) {} s as (List.Perm.refl _)
    (fun _ _ => trivial) h

/-! ## One worker -/

/-- At most one job runs, and what is meant for a queue stands in the order of acceptance. -/
structure InOrder (s : Network μ τ) : Prop where
  single : s.running.length ≤ 1
  nothing : ∀ t, s.lost t = []
  order : ∀ t, s.handled t ++ s.queued t ++ s.due targets t = s.meant targets t

theorem step_ordered (s s' : Network μ τ) (a : Move μ τ) (ha : Move.isAbort a = false) (hs : InOrder targets s)
    (h : step targets 1 s a = some s') : InOrder targets s' := by
  have horder := hs.order
  have hsingle := hs.single
  unfold due meant at horder
  obtain ⟨m, rfl, rfl⟩ | ⟨m, waiting, rfl, hwaiting, hfree, rfl⟩ | ⟨i, m, pre, post, rfl, hrunning, rfl⟩ |
    ⟨i, m, u, rest, pre, post, rfl, hrunning, rfl⟩ | ⟨i, job, pre, post, rfl, hrunning, rfl⟩ | ⟨u, m,
      queued, rfl, hqueued, rfl⟩ :=
    step_cases targets 1 s s' a h
  · refine ⟨hsingle, hs.nothing, fun t => ?_⟩
    unfold due meant
    simp only [List.flatMap_append, List.flatMap_singleton, ← horder t, List.append_assoc]
  · have hnone : s.running = [] := List.length_eq_zero_iff.mp (by omega)
    refine ⟨by rw [hnone]; exact Nat.le_refl 1, hs.nothing, fun t => ?_⟩
    unfold due meant
    simp only [← horder t, hnone, hwaiting, List.nil_append, List.append_nil, List.flatMap_nil,
      List.flatMap_cons]
  · rw [hrunning, List.length_append, List.length_cons] at hsingle
    obtain rfl : pre = [] := List.length_eq_zero_iff.mp (by omega)
    obtain rfl : post = [] := List.length_eq_zero_iff.mp (by omega)
    refine ⟨Nat.zero_le _, hs.nothing, fun t => ?_⟩
    unfold due meant
    simp only [← horder t, hrunning, List.nil_append, List.flatMap_singleton, copies_nil, List.flatMap_nil]
  · rw [hrunning, List.length_append, List.length_cons] at hsingle
    obtain rfl : pre = [] := List.length_eq_zero_iff.mp (by omega)
    obtain rfl : post = [] := List.length_eq_zero_iff.mp (by omega)
    refine ⟨Nat.le_refl 1, hs.nothing, fun t => ?_⟩
    unfold due meant
    simp only [← horder t, hrunning, List.nil_append, List.flatMap_singleton, copies_cons, List.append_assoc]
    by_cases hu : u = t
    · rw [hu, Function.update_self, if_pos rfl, List.append_assoc]
    · rw [Function.update_of_ne (Ne.symm hu), if_neg hu, List.nil_append]
  · cases ha
  · refine ⟨hsingle, hs.nothing, fun t => ?_⟩
    unfold due meant
    rw [← horder t]
    dsimp only
    by_cases hu : u = t
    · rw [← hu, Function.update_self, Function.update_self, hqueued, List.append_assoc (s.handled u),
        List.singleton_append]
    · rw [Function.update_of_ne (Ne.symm hu), Function.update_of_ne (Ne.symm hu)]

/-- With one worker, and no job that breaks off, every queue sees its messages in the order of acceptance. -/
theorem exec_ordered (as : List (Move μ τ)) (has : ∀ a ∈ as, Move.isAbort a = false) (s : Network μ τ)
    (h : exec (step targets 1) {} as = some s) : InOrder targets s :=
  exec_invariant (step targets 1) (fun a => Move.isAbort a = false) (InOrder targets)
    (fun u a u' hu ha hstep => step_ordered targets u u' a ha hu hstep) {} s as
    ⟨Nat.zero_le _, fun _ => rfl, fun _ => rfl⟩ has h

/-! ## When nothing moves any more -/

/-- No worker and no queue has anything left to do. -/
structure Idle (s : Network μ τ) : Prop where
  take : step targets workers s .take = none
  post : ∀ i, step targets workers s (.post i) = none
  handle : ∀ t, step targets workers s (.handle t) = none

theorem Idle.empty {s : Network μ τ} (h : Idle targets workers s) (hworkers : 0 < workers) :
    s.waiting = [] ∧ s.running = [] ∧ ∀ t, s.queued t = [] := by
  have hrunning : s.running = [] := by
    cases hr : s.running with
    | nil => rfl
    | cons job jobs =>
      have hpost := h.post 0
      unfold step at hpost
      dsimp only at hpost
      rw [hr] at hpost
      cases job with
      | mk m rest =>
        cases rest with
        | nil => cases hpost
        | cons t rest => cases hpost
  refine ⟨?_, hrunning, fun t => ?_⟩
  · cases hw : s.waiting with
    | nil => rfl
    | cons m waiting =>
      have htake := h.take
      unfold step at htake
      dsimp only at htake
      rw [hw, hrunning] at htake
      dsimp only at htake
      rw [if_pos (show ([] : List (Job μ τ)).length < workers from hworkers)] at htake
      cases htake
  · cases hq : s.queued t with
    | nil => rfl
    | cons m queued =>
      have hhandle := h.handle t
      unfold step at hhandle
      dsimp only at hhandle
      rw [hq] at hhandle
      cases hhandle

theorem Idle.ledger {s : Network μ τ} (h : Idle targets workers s) (hworkers : 0 < workers) (t : τ) :
    s.queued t = [] ∧ s.due targets t = [] := by
  obtain ⟨hwaiting, hrunning, hqueued⟩ := h.empty targets workers hworkers
  refine ⟨hqueued t, ?_⟩
  rw [due, hwaiting, hrunning]
  rfl

end Network

end Minilog.Lib
