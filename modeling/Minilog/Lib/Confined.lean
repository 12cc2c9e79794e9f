import Minilog.Lib.Effect
import Mathlib.Data.List.Basic

/-! Programs that work on one part of a state.

A `Part` says what a program may see and change of a state: `own` blanks all but this part, `rest` looks at
everything else. A program is `Confined` to the part if it does the same whether the rest is there or not, and
leaves the rest as it is. It is so when its calls are, by the rules below. Programs that are confined to
disjoint parts of one state may run in any order: each part goes through the run that its own programs make
alone (`interleave_own`). -/
namespace Minilog.Lib
set_option autoImplicit false

/-- `fits` are the states a program can be started in, and `exits` the ways it may end early. -/
structure Part (σ κ ε : Type) where
  own : σ → σ
  rest : σ → κ
  fits : σ → Prop
  exits : ε → Prop

namespace Effect

variable {σ κ ε α β : Type}

/-- The run from `s`. -/
structure ConfinedAt (P : Part σ κ ε) (x : Effect σ ε α) (s : σ) : Prop where
  through : x (P.own s) = ((x s).1, P.own (x s).2)
  rest : P.rest (x s).2 = P.rest s
  fits : P.fits (x s).2
  exits : ∀ e, (x s).1 = .error e → P.exits e

def Confined (P : Part σ κ ε) (x : Effect σ ε α) : Prop := ∀ s, P.fits s → ConfinedAt P x s

/-! ## Rules -/

section Rules

variable (P : Part σ κ ε)

theorem confined_pure (a : α) : Confined P (pure a : Effect σ ε α) :=
  fun _ hs => ⟨rfl, rfl, hs, fun _ h => by cases h⟩

theorem confined_raise (e : ε) (he : P.exits e) : Confined P (raise e : Effect σ ε α) := by
  refine fun s hs => ⟨rfl, rfl, hs, fun e' h => ?_⟩
  cases h
  exact he

theorem confined_modify (f : σ → σ) (hown : ∀ s, P.fits s → f (P.own s) = P.own (f s))
    (hrest : ∀ s, P.fits s → P.rest (f s) = P.rest s) (hfits : ∀ s, P.fits s → P.fits (f s)) :
    Confined P (modify f : Effect σ ε Unit) :=
  fun s hs => ⟨Prod.ext rfl (hown s hs), hrest s hs, hfits s hs, fun _ h => by cases h⟩

/-- What is read must be in the part. -/
theorem confined_get_bind (f : σ → Effect σ ε α) (hsame : ∀ s, P.fits s → f (P.own s) = f s)
    (hf : ∀ s, P.fits s → Confined P (f s)) : Confined P (get >>= f) := by
  intro s hs
  obtain ⟨hthrough, hrest, hfits, hexits⟩ := hf s hs s hs
  refine ⟨?_, hrest, hfits, hexits⟩
  change f (P.own s) (P.own s) = ((f s s).1, P.own (f s s).2)
  rw [hsame s hs]
  exact hthrough

/-- The rest of a program may rely on what its first call returned. -/
theorem confined_bind_post (x : Effect σ ε α) (f : α → Effect σ ε β) (Q : α → Prop) (hx : Confined P x)
    (hQ : ∀ s, wp x (fun a _ => Q a) (fun _ _ => True) s) (hf : ∀ a, Q a → Confined P (f a)) :
    Confined P (x >>= f) := by
  intro s hs
  obtain ⟨hthrough, hrest, hfits, hexits⟩ := hx s hs
  have hpost := hQ s
  unfold wp at hpost
  cases h : x s with
  | mk r s' =>
    rw [h] at hthrough hrest hfits hexits hpost
    cases r with
    | ok a =>
      obtain ⟨hthrough', hrest', hfits', hexits'⟩ := hf a hpost s' hfits
      have hbind := bind_of_ok x f s s' a h
      refine ⟨?_, ?_, ?_, ?_⟩
      · rw [hbind, bind_of_ok x f _ _ a hthrough]
        exact hthrough'
      · rw [hbind, hrest', hrest]
      · rw [hbind]
        exact hfits'
      · rw [hbind]
        exact hexits'
    | error e =>
      have hbind := bind_of_error x f s s' e h
      refine ⟨?_, ?_, ?_, ?_⟩
      · rw [hbind, bind_of_error x f _ _ e hthrough]
      · rw [hbind, hrest]
      · rw [hbind]
        exact hfits
      · rw [hbind]
        intro e' he'
        cases he'
        exact hexits e rfl

theorem confined_bind (x : Effect σ ε α) (f : α → Effect σ ε β) (hx : Confined P x)
    (hf : ∀ a, Confined P (f a)) :
    Confined P (x >>= f) := by
  refine confined_bind_post P x f (fun _ => True) hx (fun s => ?_) fun a _ => hf a
  unfold wp
  split
  · trivial
  · trivial

theorem confined_discard (x : Effect σ ε α) (hx : Confined P x) : Confined P (discard x) :=
  confined_bind P x _ hx fun _ => confined_pure P ()

theorem confined_ite (b : Prop) [Decidable b] (x y : Effect σ ε α) (hx : b → Confined P x)
    (hy : ¬ b → Confined P y) :
    Confined P (if b then x else y) := by
  split_ifs with h
  · exact hx h
  · exact hy h

/-- Less of the rest is looked at. -/
theorem confined_coarser {κ' : Type} (f : κ → κ') (x : Effect σ ε α) (hx : Confined P x) :
    Confined ⟨P.own, fun s => f (P.rest s), P.fits, P.exits⟩ x := fun s hs =>
  ⟨(hx s hs).through, congrArg f (hx s hs).rest, (hx s hs).fits, (hx s hs).exits⟩

/-- The handler of an exit of `x` may have exits of its own. -/
theorem confined_handle (exits : ε → Prop) (x : Effect σ ε α) (f : ε → Effect σ ε α) (hx : Confined P x)
    (hf : ∀ e, P.exits e → Confined { P with exits := exits } (f e)) :
    Confined { P with exits := exits } (handle x f) := by
  intro s hs
  obtain ⟨hthrough, hrest, hfits, hexits⟩ := hx s hs
  cases h : x s with
  | mk r s' =>
    rw [h] at hthrough hrest hfits hexits
    cases r with
    | ok a =>
      have hhandle : handle x f s = (.ok a, s') := by
        unfold handle
        rw [h]
      refine ⟨?_, ?_, ?_, ?_⟩
      · rw [hhandle]
        unfold handle
        rw [hthrough]
      · rw [hhandle]
        exact hrest
      · rw [hhandle]
        exact hfits
      · rw [hhandle]
        intro e he
        cases he
    | error e =>
      obtain ⟨hthrough', hrest', hfits', hexits'⟩ := hf e (hexits e rfl) s' hfits
      have hhandle : handle x f s = f e s' := by
        unfold handle
        rw [h]
      refine ⟨?_, ?_, ?_, ?_⟩
      · rw [hhandle, ← hthrough']
        unfold handle
        rw [hthrough]
      · rw [hhandle]
        exact hrest'.trans hrest
      · rw [hhandle]
        exact hfits'
      · rw [hhandle]
        exact hexits'

end Rules

end Effect

/-! ## Interleaving -/

section Interleave

variable {ι S σ ρ E : Type} [DecidableEq ι] (part : ι → S → ρ) (step : S → ι × E → S) (alone : ι → ρ → E → ρ)

/-- If a step of one member is, on its own part, the step it makes alone, and leaves the parts of the others,
then each part goes through the run of its own member. -/
theorem interleave_own (I : S → Prop) (ok : ι × E → Prop) (hI : ∀ s e, I s → ok e → I (step s e))
    (hsame : ∀ s i e, I s → ok (i, e) → part i (step s (i, e)) = alone i (part i s) e)
    (hother : ∀ s i j e, I s → ok (i, e) → j ≠ i → part j (step s (i, e)) = part j s)
    (events : List (ι × E)) (hok : ∀ e ∈ events, ok e) (s : S) (hs : I s) (j : ι) :
    part j (events.foldl step s) = ((events.filter fun e => e.1 = j).map Prod.snd).foldl (alone j)
    (part j s) := by
  induction events generalizing s with
  | nil => rfl
  | cons e events ih =>
    obtain ⟨i, e⟩ := e
    have hhead := hok (i, e) List.mem_cons_self
    rw [List.foldl_cons, ih (fun e' he' => hok e' (List.mem_cons_of_mem _ he')) _ (hI s (i, e) hs hhead)]
    by_cases hj : i = j
    · rw [List.filter_cons_of_pos (by simpa using hj), List.map_cons, List.foldl_cons, ← hj,
        hsame s i e hs hhead]
    · rw [List.filter_cons_of_neg (by simpa using hj), hother s i j e hs hhead (Ne.symm hj)]

end Interleave

end Minilog.Lib
