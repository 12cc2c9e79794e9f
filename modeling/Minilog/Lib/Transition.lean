import Mathlib.Algebra.Order.BigOperators.Group.List
import Mathlib.Algebra.Order.Ring.Nat
import Mathlib.Data.List.Induction

/-! Runs of a guarded step function.

`step s a` is the state after the action `a`, or `none` where `a` is not possible. `exec` runs a list of
actions. A fact about every run is proved from the right: from a run and one more action (`exec_induct`), so
that it may speak about the states the run went through. Where every call is possible and answers something,
`transcript` lists the answers. `total` adds up what the members of a list weigh, for invariants that
count. -/
namespace Minilog.Lib
set_option autoImplicit false

variable {σ α β ρ : Type}

/-! ## Runs -/

section Runs

variable (step : σ → α → Option σ)

def exec (s : σ) : List α → Option σ
  | [] => some s
  | a :: as => (step s a).bind fun s' => exec s' as

@[simp] theorem exec_nil (s : σ) : exec step s [] = some s := rfl

theorem exec_cons (s s' : σ) (a : α) (as : List α) (h : step s a = some s') :
    exec step s (a :: as) = exec step s' as := by
  rw [exec, h, Option.bind_some]

theorem exec_append (s : σ) (as bs : List α) :
    exec step s (as ++ bs) = (exec step s as).bind fun s' => exec step s' bs := by
  induction as generalizing s with
  | nil => rfl
  | cons a as ih =>
    rw [List.cons_append, exec, exec]
    cases step s a with
    | none => rfl
    | some s' => exact ih s'

theorem exec_snoc (s s' : σ) (a : α) (as : List α) (h : exec step s as = some s') :
    exec step s (as ++ [a]) = step s' a := by
  rw [exec_append, h, Option.bind_some, exec]
  cases step s' a with
  | none => rfl
  | some s'' => rfl

/-- The last action of a run, and the run before it. -/
theorem exec_snoc_eq_some (s s'' : σ) (a : α) (as : List α) (h : exec step s (as ++ [a]) = some s'') :
    ∃ s', exec step s as = some s' ∧ step s' a = some s'' := by
  cases hs : exec step s as with
  | none =>
    rw [exec_append, hs] at h
    cases h
  | some s' =>
    rw [exec_snoc step s s' a as hs] at h
    exact ⟨s', rfl, h⟩

/-- What holds of the empty run and is kept by one more action holds of every run. -/
theorem exec_induct (s : σ) (P : List α → σ → Prop) (start : P [] s)
    (more : ∀ as t a t', exec step s as = some t → P as t → step t a = some t' → P (as ++ [a]) t')
    (as : List α) (t : σ) (h : exec step s as = some t) : P as t := by
  induction as using List.reverseRecOn generalizing t with
  | nil =>
    cases h
    exact start
  | append_singleton as a ih =>
    obtain ⟨u, hu, hstep⟩ := exec_snoc_eq_some step s t a as h
    exact more as u a t hu (ih u hu) hstep

/-- An invariant that each permitted action keeps. -/
theorem exec_invariant (ok : α → Prop) (P : σ → Prop)
    (keep : ∀ t a t', P t → ok a → step t a = some t' → P t') (s t : σ) (as : List α) (hs : P s)
    (hok : ∀ a ∈ as, ok a) (h : exec step s as = some t) : P t := by
  have hrun := exec_induct step s (fun as t => (∀ a ∈ as, ok a) → P t) (fun _ => hs) ?_ as t h
  · exact hrun hok
  · intro as t a t' _ ih hstep hall
    exact keep t a t' (ih fun b hb => hall b (List.mem_append_left _ hb)) (hall a (by simp)) hstep

end Runs

/-! ## Transcripts -/

section Transcripts

variable (call : σ → α → ρ × σ)

/-- What the calls answer, one after the other. -/
def transcript (s : σ) : List α → List ρ
  | [] => []
  | a :: as => (call s a).1 :: transcript (call s a).2 as

def stateAfter (s : σ) (as : List α) : σ := as.foldl (fun s a => (call s a).2) s

theorem transcript_append (s : σ) (as bs : List α) :
    transcript call s (as ++ bs) = transcript call s as ++ transcript call (stateAfter call s as) bs := by
  induction as generalizing s with
  | nil => rfl
  | cons a as ih => rw [List.cons_append, transcript, transcript, ih, List.cons_append]; rfl

theorem stateAfter_append (s : σ) (as bs : List α) :
    stateAfter call s (as ++ bs) = stateAfter call (stateAfter call s as) bs := List.foldl_append

theorem length_transcript (s : σ) (as : List α) : (transcript call s as).length = as.length := by
  induction as generalizing s with
  | nil => rfl
  | cons a as ih => rw [transcript, List.length_cons, ih, List.length_cons]

/-- Each part of the answers belongs to a part of the calls. -/
theorem transcript_split (s : σ) (as : List α) (pre post : List ρ) (h : transcript call s as = pre ++ post) :
    ∃ as₁ as₂, as = as₁ ++ as₂ ∧ pre = transcript call s as₁ ∧
    post = transcript call (stateAfter call s as₁) as₂ := by
  refine ⟨as.take pre.length, as.drop pre.length, (List.take_append_drop _ _).symm, ?_⟩
  have hlen : pre.length ≤ as.length := by
    rw [← length_transcript call s as, h, List.length_append]
    exact Nat.le_add_right _ _
  have hsplit := transcript_append call s (as.take pre.length) (as.drop pre.length)
  rw [List.take_append_drop, h] at hsplit
  exact List.append_inj hsplit (by rw [length_transcript, List.length_take, Nat.min_eq_left hlen])

/-- What holds before any answer and is kept by one more call holds of every transcript. -/
theorem transcript_induct (s : σ) (P : List ρ → σ → Prop) (start : P [] s)
    (more : ∀ rs t a, P rs t → P (rs ++ [(call t a).1]) (call t a).2) (as : List α) :
    P (transcript call s as) (stateAfter call s as) := by
  induction as using List.reverseRecOn with
  | nil => exact start
  | append_singleton as a ih =>
    rw [transcript_append, stateAfter_append]
    exact more _ _ a ih

end Transcripts

/-! ## Traces -/

/-- Each member of a trace, given what came before it. -/
def EachAfter (P : List α → α → Prop) (l : List α) : Prop := ∀ pre a post, l = pre ++ a :: post → P pre a

theorem eachAfter_nil (P : List α → α → Prop) : EachAfter P [] := by
  intro pre a post h
  exact absurd h.symm (List.append_ne_nil_of_right_ne_nil _ (List.cons_ne_nil _ _))

theorem eachAfter_snoc (P : List α → α → Prop) (l : List α) (a : α) (h : EachAfter P l) (ha : P l a) :
    EachAfter P (l ++ [a]) := by
  intro pre b post hsplit
  rcases List.eq_nil_or_concat post with rfl | ⟨post, c, rfl⟩
  · obtain ⟨rfl, hb⟩ := List.append_inj' hsplit rfl
    cases hb
    exact ha
  · rw [List.concat_eq_append, ← List.cons_append, ← List.append_assoc] at hsplit
    exact h pre b post (List.append_inj' hsplit rfl).1

theorem eachAfter_append (P : List α → α → Prop) (l more : List α) (h : EachAfter P l)
    (hmore : ∀ pre a post, more = pre ++ a :: post → P (l ++ pre) a) : EachAfter P (l ++ more) := by
  induction more using List.reverseRecOn with
  | nil =>
    rw [List.append_nil]
    exact h
  | append_singleton more a ih =>
    rw [← List.append_assoc]
    refine eachAfter_snoc P _ a (ih fun pre b post hb => hmore pre b (post ++ [a]) ?_) (hmore more a [] rfl)
    rw [hb, List.append_assoc, List.cons_append]

/-- A relation between any two members, kept by one more that the last one is related to. -/
theorem pairwise_snoc (r : α → α → Prop) (htrans : ∀ a b c, r a b → r b c → r a c) (l : List α) (a : α)
    (h : l.Pairwise r) (hlast : ∀ b ∈ l.getLast?, r b a) : (l ++ [a]).Pairwise r := by
  rw [List.pairwise_append]
  refine ⟨h, List.pairwise_singleton _ _, fun b hb c hc => ?_⟩
  rw [List.mem_singleton.mp hc]
  rcases List.eq_nil_or_concat l with rfl | ⟨l, last, rfl⟩
  · cases hb
  · rw [List.concat_eq_append] at h hlast hb
    have hra := hlast last List.getLast?_concat
    rcases List.mem_append.mp hb with hb | hb
    · exact htrans b last a ((List.pairwise_append.mp h).2.2 b hb last List.mem_cons_self) hra
    · rw [List.mem_singleton.mp hb]
      exact hra

/-! ## Weights -/

def total (w : β → ℕ) (l : List β) : ℕ := (l.map w).sum

section Weights

variable (w : β → ℕ) (l : List β)

@[simp] theorem total_nil : total w [] = 0 := rfl

@[simp] theorem total_append (l' : List β) : total w (l ++ l') = total w l + total w l' := by
  simp [total]

@[simp] theorem total_singleton (b : β) : total w [b] = w b := by
  simp [total]

theorem total_replicate (n : ℕ) (b : β) : total w (List.replicate n b) = n * w b := by
  simp [total]

theorem total_add (w' : β → ℕ) : total (fun b => w b + w' b) l = total w l + total w' l :=
  List.sum_map_add

/-- One member gives way to another. -/
theorem total_set (i : ℕ) (b b' : β) (h : l[i]? = some b) : total w (l.set i b') + w b = total w l + w b' := by
  induction l generalizing i with
  | nil => cases h
  | cons c l ih =>
    cases i with
    | zero =>
      cases h
      simp only [total, List.set_cons_zero, List.map_cons, List.sum_cons]
      omega
    | succ i =>
      have h' := ih i h
      simp only [total, List.set_cons_succ, List.map_cons, List.sum_cons] at h' ⊢
      omega

theorem le_total (b : β) (h : b ∈ l) : w b ≤ total w l :=
  List.single_le_sum (fun _ _ => Nat.zero_le _) _ (List.mem_map_of_mem h)

theorem total_eq_zero (h : ∀ b ∈ l, w b = 0) : total w l = 0 :=
  List.sum_eq_zero (by simpa using h)

theorem total_mono (w' : β → ℕ) (h : ∀ b ∈ l, w b ≤ w' b) : total w l ≤ total w' l :=
  List.sum_le_sum h

end Weights

end Minilog.Lib
