import Mathlib.Data.List.TakeWhile
import Minilog.Lib.Bytes

/-! Views of a byte string with checked access, as `std::string_view` offers them.

`operator[]`, `remove_prefix`, `substr` and `back` have a precondition on the view's length. Here
each is a computation that fails when the precondition does not hold, so that "no access past the
end" is the statement that a computation returns `.ok`. -/
namespace Minilog.Lib
set_option autoImplicit false

inductive Fault where
  | outOfRange
  | assertion
  deriving DecidableEq, Repr

abbrev Checked := Except Fault

/-- A computation that returned went through its first part. -/
theorem bind_eq_ok {ε α β : Type} (x : Except ε α) (f : α → Except ε β) (b : β) (h : (x >>= f) = .ok b) :
    ∃ a, x = .ok a ∧ f a = .ok b := by
  cases x with
  | error e => cases h
  | ok a => exact ⟨a, rfl, h⟩

namespace View

/-- `sv[i]`. -/
def at_ (sv : Bytes) (i : ℕ) : Checked UInt8 :=
  match sv[i]? with
  | some c => .ok c
  | none => .error .outOfRange

/-- `sv.remove_prefix(n)`. -/
def removePrefix (sv : Bytes) (n : ℕ) : Checked Bytes :=
  if n ≤ sv.length then .ok (sv.drop n) else .error .outOfRange

/-- `sv.substr(pos, count)`. -/
def substr (sv : Bytes) (pos count : ℕ) : Checked Bytes :=
  if pos ≤ sv.length then .ok ((sv.drop pos).take count) else .error .outOfRange

/-- `sv.back()`. -/
def back (sv : Bytes) : Checked UInt8 :=
  match sv.getLast? with
  | some c => .ok c
  | none => .error .outOfRange

/-- `sv.find(c)`; `none` is `npos`. -/
def find (sv : Bytes) (c : UInt8) : Option ℕ := sv.findIdx? (· == c)

/-- `while (p < sv.size() && q(sv[p])) ++p;` with room for `fuel` rounds. -/
def scanFrom (q : UInt8 → Bool) (sv : Bytes) : ℕ → ℕ → Checked ℕ
  | 0, p => .ok p
  | fuel + 1, p =>
    if p < sv.length then do
      let c ← at_ sv p
      if q c then scanFrom q sv fuel (p + 1) else return p
    else return p

/-- The loop with a round for every byte of the view. -/
def scan (q : UInt8 → Bool) (sv : Bytes) (p : ℕ) : Checked ℕ := scanFrom q sv sv.length p

@[simp] theorem ok_bind {α β : Type} (a : α) (f : α → Checked β) : ((.ok a : Checked α) >>= f) = f a := rfl

@[simp] theorem pure_eq_ok {α : Type} (a : α) : (pure a : Checked α) = .ok a := rfl

theorem at_append (a b : Bytes) (c : UInt8) : at_ (a ++ c :: b) a.length = .ok c := by
  simp [at_]

@[simp] theorem at_zero (c : UInt8) (s : Bytes) : at_ (c :: s) 0 = .ok c := rfl

@[simp] theorem at_succ (c : UInt8) (s : Bytes) (i : ℕ) : at_ (c :: s) (i + 1) = at_ s i := rfl

theorem removePrefix_append (a b : Bytes) : removePrefix (a ++ b) a.length = .ok b := by
  simp [removePrefix]

theorem substr_append (a b : Bytes) : substr (a ++ b) 0 a.length = .ok a := by
  simp [substr]

theorem substr_cut (a b : Bytes) (n : ℕ) : substr (a ++ b) a.length n = .ok (b.take n) := by
  simp [substr]

theorem back_append (a : Bytes) (c : UInt8) : back (a ++ [c]) = .ok c := by
  simp [back]

theorem find_append (a b : Bytes) (c : UInt8) (ha : c ∉ a) : find (a ++ c :: b) c = some a.length := by
  have h : a.findIdx? (· == c) = none := by
    rw [List.findIdx?_eq_none_iff]
    intro x hx
    simp only [beq_eq_false_iff_ne, ne_eq]
    exact fun e => ha (e ▸ hx)
  simp [find, List.findIdx?_append, h, List.findIdx?_cons]

theorem find_none (s : Bytes) (c : UInt8) (hs : c ∉ s) : find s c = none := by
  rw [find, List.findIdx?_eq_none_iff]
  intro x hx
  simp only [beq_eq_false_iff_ne, ne_eq]
  exact fun e => hs (e ▸ hx)

/-- `find` stops at the first occurrence, or there is none. -/
theorem find_cases (s : Bytes) (c : UInt8) :
    (find s c = none ∧ c ∉ s) ∨ ∃ a b, c ∉ a ∧ s = a ++ c :: b ∧ find s c = some a.length := by
  by_cases h : c ∈ s
  · obtain ⟨a, b, hs, ha⟩ := List.eq_append_cons_of_mem h
    exact .inr ⟨a, b, ha, hs, hs ▸ find_append a b c ha⟩
  · exact .inl ⟨find_none s c h, h⟩

theorem scanFrom_append (q : UInt8 → Bool) (a b : Bytes) (ha : ∀ c ∈ a, q c = true) (pre : Bytes) (fuel : ℕ)
    (hf : a.length ≤ fuel) (hb : ∀ c ∈ b.head?, q c = false) :
    scanFrom q (pre ++ (a ++ b)) fuel pre.length = .ok (pre.length + a.length) := by
  induction a generalizing pre fuel with
  | nil =>
    cases fuel with
    | zero => rfl
    | succ fuel =>
      rw [scanFrom]
      cases b with
      | nil => simp
      | cons c b => simp [at_, hb c rfl]
  | cons c a ih =>
    cases fuel with
    | zero => simp at hf
    | succ fuel =>
      have h := ih (fun d hd => ha d (by simp [hd])) (pre ++ [c]) fuel (by simpa using hf)
      rw [scanFrom, if_pos (by simp)]
      have hat : at_ (pre ++ (c :: a ++ b)) pre.length = .ok c := at_append pre (a ++ b) c
      simp only [hat, ok_bind, ha c (by simp), if_true]
      rw [show pre ++ (c :: a ++ b) = pre ++ [c] ++ (a ++ b) by simp]
      rw [show pre.length + 1 = (pre ++ [c]).length by simp, h]
      simp only [List.length_append, List.length_cons, List.length_nil, Except.ok.injEq]
      omega

/-- The loop passes exactly the longest run that satisfies `q`. -/
theorem scan_append (q : UInt8 → Bool) (pre a b : Bytes) (ha : ∀ c ∈ a, q c = true)
    (hb : ∀ c ∈ b.head?, q c = false) :
    scan q (pre ++ (a ++ b)) pre.length = .ok (pre.length + a.length) := by
  refine scanFrom_append q a b ha pre _ ?_ hb
  simp only [List.length_append]
  omega

/-- Any view splits at the end of its longest run that satisfies `q`. -/
theorem run_split (q : UInt8 → Bool) (s : Bytes) :
    ∃ a b, s = a ++ b ∧ (∀ c ∈ a, q c = true) ∧ ∀ c ∈ b.head?, q c = false := by
  refine ⟨s.takeWhile q, s.dropWhile q, List.takeWhile_append_dropWhile.symm, ?_, ?_⟩
  · intro c hc
    exact List.mem_takeWhile_imp hc
  · intro c hc
    have h := List.head?_dropWhile_not q s
    rw [Option.mem_def.mp hc] at h
    simpa using h

end View

end Minilog.Lib
