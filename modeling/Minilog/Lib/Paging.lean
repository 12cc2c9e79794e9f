import Mathlib.Data.List.Basic
import Mathlib.Algebra.BigOperators.Group.List.Basic
import Mathlib.Algebra.GroupWithZero.Nat

/-! Reading a list in pages.

A page is taken greedily from the front of a list: at most `count` entries, and no entry that takes
the page over a byte budget unless it is the first. `Paging` is the loop of a client that asks for a
page, goes on from the cursor it was handed, and stops at the first empty page. -/
namespace Minilog.Lib
set_option autoImplicit false

variable {α : Type}

/-- The greedy page of a list, when `taken` entries of weight `used` are already on it. -/
def greedyFrom (weight : α → ℕ) (count budget : ℕ) : ℕ → ℕ → List α → List α
  | _, _, [] => []
  | taken, used, a :: l =>
    if taken < count ∧ (taken = 0 ∨ used + weight a ≤ budget) then
      a :: greedyFrom weight count budget (taken + 1) (used + weight a) l
    else []

def greedy (weight : α → ℕ) (count budget : ℕ) (l : List α) : List α := greedyFrom weight count budget 0 0 l

theorem greedyFrom_initial (weight : α → ℕ) (count budget taken used : ℕ) (l : List α) :
    greedyFrom weight count budget taken used l <+: l := by
  induction l generalizing taken used with
  | nil => exact List.prefix_refl _
  | cons a l ih =>
    rw [greedyFrom]
    split
    · exact (List.prefix_cons_inj a).mpr (ih _ _)
    · exact List.nil_prefix

theorem greedyFrom_full (weight : α → ℕ) (count budget taken used : ℕ) (l : List α) (h : ¬ taken < count) :
    greedyFrom weight count budget taken used l = [] := by
  cases l with
  | nil => rfl
  | cons a l => rw [greedyFrom, if_neg (fun ha => h ha.1)]

theorem greedyFrom_length (weight : α → ℕ) (count budget taken used : ℕ) (l : List α) :
    (greedyFrom weight count budget taken used l).length ≤ count - taken := by
  induction l generalizing taken used with
  | nil => simp [greedyFrom]
  | cons a l ih =>
    rw [greedyFrom]
    split
    · next h =>
      have := ih (taken + 1) (used + weight a)
      rw [List.length_cons]
      omega
    · simp

theorem greedyFrom_weight (weight : α → ℕ) (count budget taken used : ℕ) (l : List α) (ht : taken ≠ 0) :
    greedyFrom weight count budget taken used l = [] ∨
      used + ((greedyFrom weight count budget taken used l).map weight).sum ≤ budget := by
  induction l generalizing taken used with
  | nil => exact .inl rfl
  | cons a l ih =>
    rw [greedyFrom]
    split
    · next h =>
      right
      rw [List.map_cons, List.sum_cons]
      rcases ih (taken + 1) (used + weight a) (by omega) with h' | h'
      · rw [h']
        simp only [List.map_nil, List.sum_nil]
        omega
      · omega
    · exact .inl rfl

theorem greedy_length (weight : α → ℕ) (count budget : ℕ) (l : List α) :
    (greedy weight count budget l).length ≤ count := greedyFrom_length weight count budget 0 0 l

/-- Within the budget, unless the page is a single entry. -/
theorem greedy_weight (weight : α → ℕ) (count budget : ℕ) (l : List α) :
    ((greedy weight count budget l).map weight).sum ≤ budget ∨ (greedy weight count budget l).length = 1 := by
  cases l with
  | nil => exact .inl (Nat.zero_le budget)
  | cons a l =>
    rw [greedy, greedyFrom]
    split
    · rcases greedyFrom_weight weight count budget (0 + 1) (0 + weight a) l (by omega) with h | h
      · right
        rw [h]
        rfl
      · left
        rw [List.map_cons, List.sum_cons]
        omega
    · exact .inl (Nat.zero_le budget)

/-- The first entry is always taken, so only an empty list has an empty page. -/
theorem greedy_eq_nil (weight : α → ℕ) (count budget : ℕ) (hcount : 1 ≤ count) (l : List α) :
    greedy weight count budget l = [] ↔ l = [] := by
  cases l with
  | nil => simp [greedy, greedyFrom]
  | cons a l =>
    have h : 0 < count := hcount
    simp [greedy, greedyFrom, h]

/-- A page of images is the image of a page. -/
theorem greedyFrom_map {β : Type} (weight : β → ℕ) (f : α → β) (count budget taken used : ℕ) (l : List α) :
    (greedyFrom (fun a => weight (f a)) count budget taken used l).map f =
      greedyFrom weight count budget taken used (l.map f) := by
  induction l generalizing taken used with
  | nil => rfl
  | cons a l ih =>
    rw [greedyFrom, List.map_cons, greedyFrom]
    split
    · rw [List.map_cons, ih]
    · rfl

/-- A page of one entry. -/
theorem greedy_one (weight : α → ℕ) (budget : ℕ) (a : α) (l : List α) :
    greedy weight 1 budget (a :: l) = [a] := by
  rw [greedy, greedyFrom, if_pos ⟨Nat.one_pos, .inl rfl⟩, greedyFrom_full _ _ _ _ _ _ (Nat.lt_irrefl _)]

/-- What fits on one page: a single entry, or as many as are allowed within the budget. -/
def FitsOnePage (weight : α → ℕ) (count budget : ℕ) (l : List α) : Prop :=
  l.length ≤ count ∧ (l.length ≤ 1 ∨ (l.map weight).sum ≤ budget)

theorem greedyFrom_all (weight : α → ℕ) (count budget taken used : ℕ) (l : List α)
    (hlen : taken + l.length ≤ count) (hsum : used + (l.map weight).sum ≤ budget) :
    greedyFrom weight count budget taken used l = l := by
  induction l generalizing taken used with
  | nil => rfl
  | cons a l ih =>
    rw [List.length_cons] at hlen
    rw [List.map_cons, List.sum_cons] at hsum
    rw [greedyFrom, if_pos ⟨by omega, .inr (by omega)⟩, ih (taken + 1) (used + weight a) (by omega) (by omega)]

theorem greedy_all (weight : α → ℕ) (count budget : ℕ) (l : List α) (h : FitsOnePage weight count budget l) :
    greedy weight count budget l = l := by
  obtain ⟨hlen, hsize⟩ := h
  cases hsize with
  | inr hsum => exact greedyFrom_all weight count budget 0 0 l (by omega) (by omega)
  | inl hone =>
    cases l with
    | nil => rfl
    | cons a l =>
      rw [List.length_cons] at hlen hone
      have hnil : l = [] := List.length_eq_zero_iff.mp (by omega)
      rw [hnil, greedy, greedyFrom, if_pos ⟨by omega, .inl rfl⟩]
      rfl

/-- A page and what is left behind it. -/
theorem greedy_append_drop (weight : α → ℕ) (count budget : ℕ) (l : List α) :
    greedy weight count budget l ++ l.drop (greedy weight count budget l).length = l :=
  (List.prefix_iff_eq_append.mp (greedyFrom_initial weight count budget 0 0 l))

/-! ## The client's loop -/

/-- The pages a client gets from cursor `o` on, each with the cursor it was read from. -/
inductive Paging {π : Type} (read : ℕ → π) (entries : π → List α) (next : π → ℕ) : ℕ → List (ℕ × π) → Prop
  | done (o : ℕ) (h : entries (read o) = []) : Paging read entries next o []
  | more (o : ℕ) (pages : List (ℕ × π)) (h : entries (read o) ≠ [])
      (tail : Paging read entries next (next (read o)) pages) :
      Paging read entries next o ((o, read o) :: pages)

/-- A reader whose page is the greedy page of what its cursor stands in front of, and whose next
cursor stands right behind that page, is read to the end: the loop stops and the pages hold the
whole list. -/
theorem paging_complete {π : Type} (read : ℕ → π) (entries : π → List α) (next : π → ℕ)
    (weight : α → ℕ) (count budget : ℕ) (hcount : 1 ≤ count) (InFront : ℕ → List α → Prop)
    (hread : ∀ o l, InFront o l → entries (read o) = greedy weight count budget l)
    (hnext : ∀ o l, InFront o l → l ≠ [] →
      InFront (next (read o)) (l.drop (greedy weight count budget l).length))
    (o : ℕ) (l : List α) (h : InFront o l) :
    ∃ pages, Paging read entries next o pages ∧ pages.flatMap (fun p => entries p.2) = l ∧
      ∀ p ∈ pages, ∃ rest, rest ≠ [] ∧ InFront p.1 rest ∧ p.2 = read p.1 := by
  induction hn : l.length using Nat.strongRecOn generalizing o l with
  | ind n ih =>
    have hpage := hread o l h
    by_cases hl : l = []
    · subst hl
      refine ⟨[], .done o ?_, rfl, by simp⟩
      rw [hpage]
      rfl
    · have hne : greedy weight count budget l ≠ [] :=
        fun e => hl ((greedy_eq_nil weight count budget hcount l).mp e)
      have hpos := List.length_pos_iff.mpr hne
      have hlen := List.length_pos_iff.mpr hl
      obtain ⟨pages, htail, hflat, hall⟩ := ih (l.drop (greedy weight count budget l).length).length
        (by rw [List.length_drop]; omega) (next (read o)) _ (hnext o l h hl) rfl
      refine ⟨(o, read o) :: pages, .more o pages (hpage ▸ hne) htail, ?_, ?_⟩
      · rw [List.flatMap_cons, hflat, hpage]
        exact greedy_append_drop weight count budget l
      · intro p hp
        rcases List.mem_cons.mp hp with rfl | hp
        · exact ⟨l, hl, h, rfl⟩
        · exact hall p hp

end Minilog.Lib
