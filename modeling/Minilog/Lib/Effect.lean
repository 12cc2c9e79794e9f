import Mathlib.Init

/-! Programs with a state that may end early.

An `Effect σ ε α` runs in a state `σ` and returns an `α` or ends early with an `ε`; what it did to the
state stays in both cases. `wp x Q E s` says that `x`, run in `s`, returns into `Q` or ends into `E`. The
rules below take a program apart along its own structure; `always_bind` does it for relations
between the state before and after. -/
namespace Minilog.Lib
set_option autoImplicit false

def Effect (σ ε α : Type) : Type := σ → Except ε α × σ

namespace Effect

variable {σ ε α β : Type}

instance : Monad (Effect σ ε) where
  pure a := fun s => (.ok a, s)
  bind x f := fun s =>
    match x s with
    | (.ok a, s') => f a s'
    | (.error e, s') => (.error e, s')

theorem bind_of_ok (x : Effect σ ε α) (f : α → Effect σ ε β) (s s' : σ) (a : α) (h : x s = (.ok a, s')) :
    (x >>= f) s = f a s' := by
  change (match x s with | (.ok a, s') => f a s' | (.error e, s') => (.error e, s')) = _
  rw [h]

theorem bind_of_error (x : Effect σ ε α) (f : α → Effect σ ε β) (s s' : σ) (e : ε) (h : x s = (.error e, s')) :
    (x >>= f) s = (.error e, s') := by
  change (match x s with | (.ok a, s') => f a s' | (.error e, s') => (.error e, s')) = _
  rw [h]

theorem bind_pure_eq (x : Effect σ ε α) : x >>= pure = x := by
  funext s
  cases h : x s with
  | mk r s' =>
    cases r with
    | ok a => exact bind_of_ok x pure s s' a h
    | error e => exact bind_of_error x pure s s' e h

theorem bind_bind {γ : Type} (x : Effect σ ε α) (f : α → Effect σ ε β) (g : β → Effect σ ε γ) :
    x >>= f >>= g = x >>= fun a => f a >>= g := by
  funext s
  cases h : x s with
  | mk r s' =>
    cases r with
    | ok a =>
      rw [bind_of_ok x _ s s' a h]
      cases hf : f a s' with
      | mk r t =>
        have hxf := (bind_of_ok x f s s' a h).trans hf
        cases r with
        | ok b => rw [bind_of_ok _ g s t b hxf, bind_of_ok _ g s' t b hf]
        | error e => rw [bind_of_error _ g s t e hxf, bind_of_error _ g s' t e hf]
    | error e =>
      rw [bind_of_error x _ s s' e h, bind_of_error _ g s s' e (bind_of_error x f s s' e h)]

instance : LawfulMonad (Effect σ ε) := LawfulMonad.mk' (Effect σ ε) bind_pure_eq (fun _ _ => rfl) bind_bind

def get : Effect σ ε σ := fun s => (.ok s, s)

def modify (f : σ → σ) : Effect σ ε Unit := fun s => (.ok (), f s)

def raise (e : ε) : Effect σ ε α := fun s => (.error e, s)

/-- `try x catch`: the handler sees the early end and the state it left. -/
def handle (x : Effect σ ε α) (f : ε → Effect σ ε α) : Effect σ ε α := fun s =>
  match x s with
  | (.ok a, s') => (.ok a, s')
  | (.error e, s') => f e s'

def wp (x : Effect σ ε α) (Q : α → σ → Prop) (E : ε → σ → Prop) (s : σ) : Prop :=
  match x s with
  | (.ok a, s') => Q a s'
  | (.error e, s') => E e s'

/-! ## Rules -/

section Rules

variable (Q : α → σ → Prop) (R : β → σ → Prop) (E : ε → σ → Prop) (s : σ)

@[simp] theorem wp_pure (a : α) : wp (pure a : Effect σ ε α) Q E s = Q a s := rfl

@[simp] theorem wp_get (Q : σ → σ → Prop) : wp (get : Effect σ ε σ) Q E s = Q s s := rfl

@[simp] theorem wp_modify (f : σ → σ) (Q : Unit → σ → Prop) :
    wp (modify f : Effect σ ε Unit) Q E s = Q () (f s) := rfl

@[simp] theorem wp_raise (e : ε) : wp (raise e : Effect σ ε α) Q E s = E e s := rfl

@[simp] theorem wp_bind (x : Effect σ ε α) (f : α → Effect σ ε β) :
    wp (x >>= f) R E s = wp x (fun a => wp (f a) R E) E s := by
  unfold wp
  cases h : x s with
  | mk r s' =>
    cases r with
    | ok a => rw [bind_of_ok x f s s' a h]
    | error e => rw [bind_of_error x f s s' e h]

@[simp] theorem wp_handle (x : Effect σ ε α) (f : ε → Effect σ ε α) :
    wp (handle x f) Q E s = wp x Q (fun e => wp (f e) Q E) s := by
  unfold wp handle
  cases h : x s with
  | mk r s' =>
    cases r with
    | ok a => rfl
    | error e => rfl

/-- A postcondition may be weakened. -/
theorem wp_mono (x : Effect σ ε α) (Q Q' : α → σ → Prop) (E E' : ε → σ → Prop) (s : σ) (h : wp x Q E s)
    (hQ : ∀ a s', Q a s' → Q' a s') (hE : ∀ e s', E e s' → E' e s') : wp x Q' E' s := by
  unfold wp at h ⊢
  cases hx : x s with
  | mk r s' =>
    rw [hx] at h
    cases r with
    | ok a => exact hQ a s' h
    | error e => exact hE e s' h

theorem wp_and (x : Effect σ ε α) (Q Q' : α → σ → Prop) (E E' : ε → σ → Prop) (s : σ) (h : wp x Q E s)
    (h' : wp x Q' E' s) :
    wp x (fun a s' => Q a s' ∧ Q' a s') (fun e s' => E e s' ∧ E' e s') s := by
  unfold wp at h h' ⊢
  cases hx : x s with
  | mk r s' =>
    rw [hx] at h h'
    cases r with
    | ok a => exact ⟨h, h'⟩
    | error e => exact ⟨h, h'⟩

/-- A program that cannot end early returns. -/
theorem wp_returns (x : Effect σ ε α) (Q : α → σ → Prop) (E : ε → σ → Prop) (s : σ) (h : wp x Q E s)
    (hE : ∀ e s', ¬ E e s') :
    ∃ a s', x s = (.ok a, s') ∧ Q a s' := by
  unfold wp at h
  cases hx : x s with
  | mk r s' =>
    rw [hx] at h
    cases r with
    | ok a => exact ⟨a, s', rfl, h⟩
    | error e => exact absurd h (hE e s')

end Rules

/-! ## What a program always does -/

/-- However it ends, the program leaves a state related to the one it started in. -/
def Always (r : σ → σ → Prop) (x : Effect σ ε α) : Prop := ∀ s, wp x (fun _ s' => r s s') (fun _ s' => r s s') s

theorem always_pure (r : σ → σ → Prop) (hrefl : ∀ s, r s s) (a : α) : Always r (pure a : Effect σ ε α) := hrefl

theorem always_get (r : σ → σ → Prop) (hrefl : ∀ s, r s s) : Always r (get : Effect σ ε σ) := hrefl

theorem always_raise (r : σ → σ → Prop) (hrefl : ∀ s, r s s) (e : ε) : Always r (raise e : Effect σ ε α) :=
  hrefl

theorem always_bind (r : σ → σ → Prop) (htrans : ∀ a b c, r a b → r b c → r a c) (x : Effect σ ε α)
    (f : α → Effect σ ε β) (hx : Always r x) (hf : ∀ a, Always r (f a)) : Always r (x >>= f) := by
  intro s
  rw [wp_bind]
  refine wp_mono x _ _ _ _ s (hx s) ?_ (fun _ _ h => h)
  intro a s' hs'
  exact wp_mono (f a) _ _ _ _ s' (hf a s') (fun _ s'' h => htrans s s' s'' hs' h)
    (fun _ s'' h => htrans s s' s'' hs' h)

/-- An invariant is kept when every state a program leaves keeps it. -/
theorem wp_of_always (r : σ → σ → Prop) (x : Effect σ ε α) (h : Always r x) (s : σ) (P : σ → Prop)
    (hP : ∀ s', r s s' → P s') :
    wp x (fun _ s' => P s') (fun _ s' => P s') s :=
  wp_mono x _ _ _ _ s (h s) (fun _ s' hs' => hP s' hs') (fun _ s' hs' => hP s' hs')

end Effect

end Minilog.Lib
