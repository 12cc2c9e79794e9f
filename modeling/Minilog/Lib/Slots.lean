import Mathlib.Data.List.Basic
import Mathlib.Logic.Function.Basic

/-! Numbered slots whose contents move up.

A rotation keeps its newest item in slot 0 and moves every item one slot up, the highest first. `move` is one
such step and `moves s h k` the first `k` of them, from slot `h` down; `moves_apply` is the closed form.
`listing s n` reads the `n` lowest slots, the highest first, so that moving changes nothing in it as long as
no item is moved onto another. -/
namespace Minilog.Lib
set_option autoImplicit false

variable {α : Type}

abbrev Slots (α : Type) := ℕ → Option α

namespace Slots

def set (s : Slots α) (n : ℕ) (v : Option α) : Slots α := Function.update s n v

@[simp] theorem set_same (s : Slots α) (n : ℕ) (v : Option α) : set s n v n = v := Function.update_self ..

@[simp] theorem set_other (s : Slots α) (n m : ℕ) (v : Option α) (h : m ≠ n) : set s n v m = s m :=
  Function.update_of_ne h ..

/-- The item of slot `m`, if there is one, goes to slot `m + 1`. -/
def move (s : Slots α) (m : ℕ) : Slots α := if s m = none then s else set (set s (m + 1) (s m)) m none

theorem move_apply (s : Slots α) (m n : ℕ) (hv : s (m + 1) = none) :
    move s m n = if n = m then none else if n = m + 1 then s m else s n := by
  unfold move
  split
  · next hm =>
    by_cases hn : n = m
    · rw [if_pos hn, hn, hm]
    · rw [if_neg hn]
      by_cases hn' : n = m + 1
      · rw [if_pos hn', hn', hv, hm]
      · rw [if_neg hn']
  · by_cases hn : n = m
    · rw [if_pos hn, hn, set_same]
    · rw [if_neg hn, set_other _ _ _ _ hn]
      by_cases hn' : n = m + 1
      · rw [if_pos hn', hn', set_same]
      · rw [if_neg hn', set_other _ _ _ _ hn']

/-- After `k` moves from slot `h` down. -/
def moves (s : Slots α) (h : ℕ) : ℕ → Slots α
  | 0 => s
  | k + 1 => move (moves s h k) (h - k)

theorem moves_apply (s : Slots α) (h k n : ℕ) (hv : s (h + 1) = none) (hk : k ≤ h + 1) :
    moves s h k n = if n + k ≤ h then s n else if n + k = h + 1 then none else if n ≤ h + 1 then s (n - 1)
    else s n := by
  induction k generalizing n with
  | zero =>
    unfold moves
    by_cases h1 : n + 0 ≤ h
    · rw [if_pos h1]
    · rw [if_neg h1]
      by_cases h2 : n + 0 = h + 1
      · rw [if_pos h2, show n = h + 1 by omega, hv]
      · rw [if_neg h2, if_neg (by omega)]
  | succ k ih =>
    have hvac : moves s h k (h - k + 1) = none := by
      rw [ih _ (by omega), if_neg (by omega), if_pos (by omega)]
    rw [moves, move_apply _ _ _ hvac]
    by_cases hn : n = h - k
    · rw [if_pos hn, if_neg (by omega), if_pos (by omega)]
    · rw [if_neg hn]
      by_cases hn' : n = h - k + 1
      · rw [if_pos hn', ih _ (by omega), if_pos (by omega), if_neg (by omega), if_neg (by omega),
          if_pos (by omega), show n - 1 = h - k by omega]
      · rw [if_neg hn', ih _ (by omega)]
        by_cases h1 : n + k ≤ h
        · rw [if_pos h1, if_pos (by omega)]
        · have h2 : ¬ n + k = h + 1 := by omega
          have h3 : ¬ n + (k + 1) ≤ h := by omega
          have h4 : ¬ n + (k + 1) = h + 1 := by omega
          rw [if_neg h1, if_neg h2, if_neg h3, if_neg h4]

/-- The first move may be taken apart. -/
theorem moves_succ (s : Slots α) (h k : ℕ) : moves (move s (h + 1)) h k = moves s (h + 1) (k + 1) := by
  induction k with
  | zero => rfl
  | succ k ih => rw [moves, ih, moves.eq_2 s (h + 1) (k + 1), Nat.add_sub_add_right]

/-! ## The items in order -/

/-- The items of the `n` lowest slots, the highest first. -/
def listing (s : Slots α) : ℕ → List α
  | 0 => []
  | n + 1 => (s n).toList ++ listing s n

theorem listing_congr (s t : Slots α) (n : ℕ) (h : ∀ m, m < n → s m = t m) : listing s n = listing t n := by
  induction n with
  | zero => rfl
  | succ n ih => rw [listing, listing, h n (Nat.lt_succ_self n), ih fun m hm => h m (by omega)]

theorem mem_listing (s : Slots α) (n : ℕ) (a : α) : a ∈ listing s n ↔ ∃ m, m < n ∧ s m = some a := by
  induction n with
  | zero => exact iff_of_false List.not_mem_nil fun ⟨_, hm, _⟩ => Nat.not_lt_zero _ hm
  | succ n ih =>
    rw [listing, List.mem_append, Option.mem_toList, ih]
    constructor
    · rintro (h | ⟨m, hm, h⟩)
      · exact ⟨n, Nat.lt_succ_self n, h⟩
      · exact ⟨m, Nat.lt_succ_of_lt hm, h⟩
    · rintro ⟨m, hm, h⟩
      by_cases hmn : m = n
      · exact .inl (hmn ▸ h)
      · exact .inr ⟨m, by omega, h⟩

/-- Moving an item to a free slot keeps the order. -/
theorem listing_move (s : Slots α) (m n : ℕ) (hv : s (m + 1) = none) (hm : m + 2 ≤ n) :
    listing (move s m) n = listing s n := by
  induction n with
  | zero => omega
  | succ n ih =>
    by_cases hn : n = m + 1
    · have hbelow : listing (move s m) m = listing s m := by
        apply listing_congr
        intro k hk
        rw [move_apply s m k hv, if_neg (by omega), if_neg (by omega)]
      have htop : move s m (m + 1) = s m := by rw [move_apply s m _ hv, if_neg (by omega), if_pos rfl]
      have hlow : move s m m = none := by rw [move_apply s m _ hv, if_pos rfl]
      rw [hn, listing, listing, listing, listing, hbelow, htop, hlow, hv]
      simp
    · rw [listing, listing, ih (by omega), move_apply s m _ hv, if_neg (by omega), if_neg hn]

/-- An item of the highest slot in use stands first. -/
theorem listing_top (s : Slots α) (m n : ℕ) (hm : m < n) (hfree : ∀ k, m < k → k < n → s k = none) :
    listing s n = (s m).toList ++ listing (set s m none) n := by
  induction n with
  | zero => omega
  | succ n ih =>
    by_cases hn : n = m
    · have hbelow : listing (set s m none) m = listing s m :=
        listing_congr _ _ m fun k hk => set_other s m k none (by omega)
      rw [hn, listing, listing, set_same, hbelow]
      rfl
    · rw [listing, listing, hfree n (by omega) (Nat.lt_succ_self n), set_other s m n none hn,
        hfree n (by omega) (Nat.lt_succ_self n), ih (by omega) fun k hk hkn => hfree k hk (by omega)]
      rfl

/-- The newest item stands last. -/
theorem listing_zero (s : Slots α) (n : ℕ) :
    listing s (n + 1) = listing (set s 0 none) (n + 1) ++ (s 0).toList := by
  induction n with
  | zero => simp [listing]
  | succ n ih =>
    have hstep : ∀ t : Slots α, listing t (n + 1 + 1) = (t (n + 1)).toList ++ listing t (n + 1) := fun _ => rfl
    rw [hstep, hstep, ih, set_other s 0 (n + 1) none (by omega), List.append_assoc]

/-- Slots 1, ..., `k` and no other: each is found at its place in the listing. -/
theorem listing_full (s : Slots α) (k n : ℕ) (hkn : k < n) (hzero : s 0 = none)
    (hused : ∀ m, 1 ≤ m → m ≤ k → s m ≠ none) (hfree : ∀ m, k < m → m < n → s m = none) :
    (listing s n).length = k ∧ ∀ m, 1 ≤ m → m ≤ k → (listing s n)[k - m]? = s m := by
  induction n generalizing k with
  | zero => omega
  | succ n ih =>
    rw [listing]
    by_cases hn : n = k
    · by_cases hk : k = 0
      · have hnil : listing s (n + 1) = [] := by
          rw [hn, hk, listing, listing, hzero]
          rfl
        rw [listing] at hnil
        rw [hnil, hk]
        exact ⟨rfl, fun m hm hm' => by omega⟩
      · obtain ⟨hlen, hget⟩ := ih (k - 1) (by omega) (fun m hm hm' => hused m hm (by omega))
          (fun m hm hm' => by omega)
        obtain ⟨v, hv⟩ := Option.ne_none_iff_exists'.mp (hused n (by omega) (by omega))
        rw [hv, Option.toList_some, List.singleton_append, List.length_cons, hlen]
        refine ⟨by omega, ?_⟩
        intro m hm hm'
        by_cases hmk : m = k
        · rw [hmk, Nat.sub_self, List.getElem?_cons_zero, ← hn, hv]
        · rw [show k - m = (k - 1 - m) + 1 by omega, List.getElem?_cons_succ, hget m hm (by omega)]
    · rw [hfree n (by omega) (Nat.lt_succ_self n), Option.toList_none, List.nil_append]
      exact ih k (by omega) hused fun m hm hm' => hfree m hm (by omega)

end Slots

end Minilog.Lib
