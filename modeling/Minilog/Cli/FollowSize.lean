import Minilog.Cli.Follow

/-! The follow loop on Windows, where `_file_id` is the size of the file.

A record that is appended changes the size, so at the next end of the file the loop takes it for a rotation
and reads the file again from its beginning. Nothing is repeated exactly as long as nothing has been shown of
the file by then (`Tail.Repeats`). -/
namespace Minilog.Cli
open Lib
set_option autoImplicit false

section Follow

variable {ρ β : Type} (bytes : ρ → ℕ) (render : ρ → Option β)

/-- The loop finds another size than the one it keeps, and a record in front of its position is one that is
shown. -/
def Tail.Repeats (s : Tail ρ β) : Prop :=
  match s.phase with
  | .checking f =>
    s.currentId ≠ some (total bytes (s.contents s.active)) ∧
      ∃ r ∈ (s.contents f.inode).take f.pos, render r ≠ none
  | _ => False

/-- No step of the run starts from such a state. -/
def Unrepeated (s : Tail ρ β) : List (Action ρ) → Prop
  | [] => True
  | a :: as => ¬ s.Repeats bytes render ∧
    match step .windows bytes render s a with
    | none => True
    | some s' => Unrepeated s' as

instance (s : Tail ρ β) : Decidable (s.Repeats bytes render) :=
  match h : s.phase with
  | .checking f => decidable_of_iff (s.currentId ≠ some (total bytes (s.contents s.active)) ∧
      ∃ r ∈ (s.contents f.inode).take f.pos, render r ≠ none) (by rw [Tail.Repeats, h])
  | .reading _ | .waiting | .opening | .recording _ => isFalse (by rw [Tail.Repeats, h]; exact id)

instance (s : Tail ρ β) (as : List (Action ρ)) : Decidable (Unrepeated bytes render s as) := by
  induction as generalizing s with
  | nil => exact isTrue trivial
  | cons a as ih =>
    unfold Unrepeated
    cases step .windows bytes render s a with
    | none => exact inferInstance
    | some s' =>
      have := ih s'
      exact inferInstance

/-- What is printed and what lies ahead make up what was appended, and only the active file is ever open. -/
structure Holds (s : Tail ρ β) : Prop where
  all : s.printed ++ s.remaining.filterMap render = s.appended.filterMap render
  bounded : ∀ f, s.phase.handle = some f → f.pos ≤ (s.contents f.inode).length
  own : ∀ f, s.phase.handle = some f → f.inode = s.active

theorem holds_following (contents : ℕ → List ρ) (active : ℕ) :
    Holds render (following contents active : Tail ρ β) where
  all := (tracks_following render contents active).all
  bounded := (tracks_following render contents active).bounded
  own := (fun f hf => by cases hf; rfl)

theorem holds_append (s s' : Tail ρ β) (r : ρ) (h : Holds render s)
    (hs : step .windows bytes render s (.append r) = some s') :
    Holds render s' := by
  cases hs
  refine ⟨?_, fun f hf => (h.bounded f hf).trans (length_contents_append s r f.inode), h.own⟩
  rw [remaining_append s r h.bounded, List.filterMap_append, List.filterMap_append, ← List.append_assoc, h.all]

/-- A file of which nothing has been shown may be read again. -/
theorem ahead_again (s : Tail ρ β) (f : Handle) (hown : f.inode = s.active)
    (hnone : ∀ r ∈ (s.contents f.inode).take f.pos, render r = none) :
    (s.contents s.active).filterMap render = (s.ahead f).filterMap render := by
  unfold Tail.ahead
  rw [if_pos hown, ← hown]
  conv_lhs => rw [← List.take_append_drop f.pos (s.contents f.inode)]
  rw [List.filterMap_append, List.filterMap_eq_nil_iff.mpr hnone, List.nil_append]

theorem holds_tick (s : Tail ρ β) (h : Holds render s) (hno : ¬ s.Repeats bytes render) :
    Holds render (s.tick .windows bytes render) := by
  refine ⟨?_, tick_bounded .windows bytes render s h.bounded, fun g hg => ?_⟩
  · rw [tick_appended, ← h.all]
    refine tick_remaining .windows bytes render s fun f hp hnew => ?_
    -- read again, but nothing of it had been shown
    have hnone : ∀ r ∈ (s.contents f.inode).take f.pos, render r = none := by
      intro r hr
      by_contra hshown
      unfold Tail.Repeats at hno
      rw [hp] at hno
      exact hno ⟨Ne.symm hnew, r, hr, hshown⟩
    exact ahead_again render s f (h.own f (by rw [hp]; rfl)) hnone
  · cases hp : s.phase with
    | reading f =>
      cases hl : (s.contents f.inode)[f.pos]? with
      | some line =>
        rw [tick_line .windows bytes render s f line hp hl] at hg ⊢
        cases hg
        exact h.own f (by rw [hp]; rfl)
      | none =>
        rw [tick_end .windows bytes render s f hp hl] at hg ⊢
        cases hg
        exact h.own _ (by rw [hp]; rfl)
    | checking f =>
      rcases tick_checking .windows bytes render s f hp with ⟨-, -, htick⟩ | ⟨-, htick⟩
      · rw [htick] at hg
        cases hg
      · rw [htick] at hg ⊢
        cases hg
        exact h.own _ (by rw [hp]; rfl)
    | waiting =>
      unfold Tail.tick at hg
      rw [hp] at hg
      cases hg
    | opening =>
      unfold Tail.tick at hg ⊢
      rw [hp] at hg ⊢
      cases hg
      rfl
    | recording f =>
      unfold Tail.tick at hg ⊢
      rw [hp] at hg ⊢
      cases hg
      exact h.own _ (by rw [hp]; rfl)

theorem exec_holds (as : List (Action ρ)) (s t : Tail ρ β) (hs : Holds render s)
    (hrun : exec (step .windows bytes render) s as = some t) (hstays : ∀ a ∈ as, a.rotates = false)
    (hcalm : Unrepeated bytes render s as) : Holds render t := by
  induction as generalizing s with
  | nil =>
    cases hrun
    exact hs
  | cons a as ih =>
    obtain ⟨hno, hrest⟩ := hcalm
    cases hstep : step .windows bytes render s a with
    | none =>
      rw [exec, hstep] at hrun
      cases hrun
    | some s' =>
      rw [exec_cons _ _ _ _ _ hstep] at hrun
      rw [hstep] at hrest
      refine ih s' ?_ hrun (fun b hb => hstays b (List.mem_cons_of_mem _ hb)) hrest
      cases a with
      | append r => exact holds_append bytes render s s' r hs hstep
      | rotate inode => exact absurd (hstays _ List.mem_cons_self) Bool.noConfusion
      | tick =>
        cases hstep
        exact holds_tick bytes render s hs hno

/-! ## Reading again -/

/-- The loop prints the rest of an open file. -/
theorem prints_rest (n : ℕ) (s : Tail ρ β) (f : Handle) (hp : s.phase = .reading f)
    (hn : f.pos + n = (s.contents f.inode).length) :
    ∃ t, exec (step .windows bytes render) s (List.replicate n .tick) = some t ∧ t.appended = s.appended ∧
      t.printed = s.printed ++ ((s.contents f.inode).drop f.pos).filterMap render := by
  induction n generalizing s f with
  | zero =>
    refine ⟨s, rfl, rfl, ?_⟩
    rw [List.drop_of_length_le (by omega), List.filterMap_nil, List.append_nil]
  | succ n ih =>
    have hlt : f.pos < (s.contents f.inode).length := by omega
    have hl : (s.contents f.inode)[f.pos]? = some (s.contents f.inode)[f.pos] := List.getElem?_eq_getElem hlt
    obtain ⟨t, hrun, happended, hprinted⟩ := ih { s with
      phase := .reading ⟨f.inode, f.pos + 1⟩
      printed := s.printed ++ (render (s.contents f.inode)[f.pos]).toList } ⟨f.inode,
        f.pos + 1⟩ rfl (by dsimp only; omega)
    refine ⟨t, ?_, happended, ?_⟩
    · rw [List.replicate_succ, exec_cons (step .windows bytes render) s _ .tick _ rfl,
        tick_line .windows bytes render s f _ hp hl]
      exact hrun
    · rw [hprinted, List.drop_eq_getElem_cons hlt, List.append_assoc]
      cases hr : render (s.contents f.inode)[f.pos] with
      | none => rw [List.filterMap_cons_none hr, Option.toList_none, List.nil_append]
      | some out => rw [List.filterMap_cons_some hr, Option.toList_some, List.singleton_append]

/-- From a check that finds another size, the loop prints the whole file. -/
theorem prints_again (s : Tail ρ β) (f : Handle) (hp : s.phase = .checking f)
    (hid : s.currentId ≠ some (total bytes (s.contents s.active))) :
    ∃ n t, exec (step .windows bytes render) s (List.replicate n .tick) = some t ∧ t.appended = s.appended ∧
      t.printed = s.printed ++ (s.contents s.active).filterMap render := by
  have hone : s.tick .windows bytes render = { s with phase := .waiting } := by
    unfold Tail.tick fileId
    rw [hp]
    dsimp only
    exact if_pos ⟨Option.some_ne_none _, Ne.symm hid⟩
  obtain ⟨t, hrun, happended, hprinted⟩ := prints_rest bytes render (s.contents s.active).length
    { s with phase := .reading ⟨s.active, 0⟩, currentId := some (total bytes (s.contents s.active)) }
    ⟨s.active, 0⟩ rfl (Nat.zero_add _)
  refine ⟨4 + (s.contents s.active).length, t, ?_, happended, hprinted⟩
  rw [List.replicate_add, exec_append]
  have hfour : exec (step .windows bytes render) s (List.replicate 4 .tick) =
      some { s with phase := .reading ⟨s.active, 0⟩, currentId := some (total bytes (s.contents s.active)) } := by
    rw [List.replicate_succ, exec_cons (step .windows bytes render) s _ .tick _ rfl, hone]
    rfl
  rw [hfour]
  exact hrun

/-- Without a rotation, what is printed is a first part of what was appended as long as no check repeats
something; from one that does, the loop prints more than was appended. -/
theorem follow_size_exact (contents : ℕ → List ρ) (active : ℕ) (as : List (Action ρ)) (s : Tail ρ β)
    (h : exec (step .windows bytes render) (following contents active) as = some s)
    (hstays : ∀ a ∈ as, a.rotates = false) (hcalm : Unrepeated bytes render (following contents active) as) :
    s.printed <+: s.appended.filterMap render ∧
      (s.Repeats bytes render → ∃ n t, exec (step .windows bytes render) s (List.replicate n .tick) = some t ∧
        t.appended = s.appended ∧ (s.appended.filterMap render).length < t.printed.length) := by
  have hholds := exec_holds bytes render as _ s (holds_following render contents active) h hstays hcalm
  refine ⟨⟨_, hholds.all⟩, ?_⟩
  intro hrep
  unfold Tail.Repeats at hrep
  cases hp : s.phase with
  | checking f =>
    rw [hp] at hrep
    obtain ⟨hid, r, hr, hshown⟩ := hrep
    obtain ⟨n, t, hrun, happended, hprinted⟩ := prints_again bytes render s f hp hid
    refine ⟨n, t, hrun, happended, ?_⟩
    have hall := congrArg List.length hholds.all
    have hown := hholds.own f (by rw [hp]; rfl)
    unfold Tail.remaining at hall
    rw [hp] at hall
    simp only [Phase.handle, Tail.ahead, if_pos hown, List.length_append] at hall
    -- the shown record is counted twice
    have hfront : 0 < (((s.contents s.active).take f.pos).filterMap render).length := by
      obtain ⟨out, hout⟩ := Option.ne_none_iff_exists'.mp hshown
      rw [hown] at hr
      exact List.length_pos_of_mem (List.mem_filterMap.mpr ⟨r, hr, hout⟩)
    have hsplit : ((s.contents s.active).filterMap render).length =
        (((s.contents s.active).take f.pos).filterMap render).length +
          (((s.contents s.active).drop f.pos).filterMap render).length := by
      rw [← List.length_append, ← List.filterMap_append, List.take_append_drop]
    rw [hprinted, List.length_append]
    omega
  | reading f => rw [hp] at hrep; exact hrep.elim
  | waiting => rw [hp] at hrep; exact hrep.elim
  | opening => rw [hp] at hrep; exact hrep.elim
  | recording f => rw [hp] at hrep; exact hrep.elim

end Follow

/-- An empty file: a record that comes before its size is checked is read from the new beginning, and only
once. -/
def grownEarly : List (Action ℕ) := [.tick, .tick, .append 3, .tick, .tick, .tick, .tick, .tick, .tick, .tick]

theorem follow_size_exact_early :
    ∃ s : Tail ℕ ℕ, exec (step .windows id some) (following (fun _ => []) 1) grownEarly = some s ∧ s.CaughtUp ∧
      s.printed <+: s.appended.filterMap some ∧ s.printed = [3] := by
  have hcalm : Unrepeated id some (following (fun _ => []) 1 : Tail ℕ ℕ) grownEarly := by decide
  have hexact := (follow_size_exact id some (fun _ => []) 1 grownEarly _ rfl (by decide) hcalm).1
  exact ⟨_, rfl, by decide, hexact, by decide⟩

/-- A record is appended to a file of one record, and the loop left alone. -/
def regrown : List (Action ℕ) := [.tick, .append 3, .tick, .tick, .tick, .tick, .tick, .tick, .tick, .tick]

/-- Both are printed: the appended one a second time, and the one that was there before. -/
theorem growth_repeats_records :
    ¬ ∀ (as : List (Action ℕ)) (s : Tail ℕ ℕ),
    exec (step .windows id some) (following (fun _ => [1]) 1) as = some s →
      (∀ a ∈ as, a.rotates = false) → ∀ r, s.printed.count r ≤ s.appended.count r := by
  intro h
  have hmore := h regrown _ rfl (by decide) 3
  exact absurd hmore (by decide)

end Minilog.Cli
