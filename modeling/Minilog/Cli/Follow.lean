import Minilog.Lib.Transition

/-! The follow loop of `tail_file` in `minilog-cli-viewer.py`, beside a server that writes and rotates the file.

A file is known by its inode. The server appends whole records to the active file, or moves that away and
creates an empty one in one step; between any two steps of the server the loop may do one of its own, up to
its next call that touches a file. `render` is what the loop prints for a line, if anything. -/
namespace Minilog.Cli
open Lib
set_option autoImplicit false

/-- An open file: its inode and how many records have been read from it. -/
structure Handle where
  inode : ℕ
  pos : ℕ
deriving DecidableEq

/-- What the loop does next: read a line; after the end of the file, ask for the id of the path; after a
rotation, wait for the file to exist and open it; keep the id of the path as `current_id`. -/
inductive Phase where
  | reading (f : Handle)
  | checking (f : Handle)
  | waiting
  | opening
  | recording (f : Handle)
deriving DecidableEq

inductive Platform where
  | posix
  | windows
deriving DecidableEq

/-- `appended` are the records since following started; it is not part of the program. -/
structure Tail (ρ β : Type) where
  contents : ℕ → List ρ
  active : ℕ
  phase : Phase
  currentId : Option ℕ := none
  printed : List β := []
  appended : List ρ := []

inductive Action (ρ : Type) where
  | append (r : ρ)
  | rotate (inode : ℕ)
  | tick

section Follow

variable {ρ β : Type} (platform : Platform) (bytes : ρ → ℕ) (render : ρ → Option β)

/-- `_file_id` of the path: its inode or, on Windows, its size. -/
def fileId (s : Tail ρ β) : Option ℕ :=
  match platform with
  | .posix => some s.active
  | .windows => some (total bytes (s.contents s.active))

/-- One step of the loop. -/
def Tail.tick (s : Tail ρ β) : Tail ρ β :=
  match s.phase with
  | .reading f =>
    match (s.contents f.inode)[f.pos]? with
    | some line =>
      { s with phase := .reading ⟨f.inode, f.pos + 1⟩, printed := s.printed ++ (render line).toList }
    | none => { s with phase := .checking f }
  | .checking f =>
    let newId := fileId platform bytes s
    if newId ≠ none ∧ newId ≠ s.currentId then { s with phase := .waiting } else { s with phase := .reading f }
  | .waiting => { s with phase := .opening }
  | .opening => { s with phase := .recording ⟨s.active, 0⟩ }
  | .recording f => { s with phase := .reading f, currentId := fileId platform bytes s }

/-- The file that the loop holds open. -/
def Phase.handle : Phase → Option Handle
  | .reading f | .checking f | .recording f => some f
  | .waiting | .opening => none

/-- A new file has an inode of its own: not that of the file moved away, nor that of a file held open. -/
def step (s : Tail ρ β) : Action ρ → Option (Tail ρ β)
  | .append r =>
    some { s with
      contents := Function.update s.contents s.active (s.contents s.active ++ [r])
      appended := s.appended ++ [r] }
  | .rotate inode =>
    if inode = s.active ∨ (s.phase.handle.map Handle.inode) = some inode then none
    else some { s with contents := Function.update s.contents inode [], active := inode }
  | .tick => some (s.tick platform bytes render)

/-- The initial lines have been read or skipped, up to the end of the file. -/
def following (contents : ℕ → List ρ) (active : ℕ) : Tail ρ β where
  contents := contents
  active := active
  phase := .recording ⟨active, (contents active).length⟩

/-- The loop has read the active file to its end. -/
def Tail.CaughtUp (s : Tail ρ β) : Prop := s.phase = .reading ⟨s.active, (s.contents s.active).length⟩

/-! ## What has not been read -/

/-- The records of a file from a position on, and those of the active file if that is another one. -/
def Tail.ahead (s : Tail ρ β) (f : Handle) : List ρ :=
  if f.inode = s.active then (s.contents s.active).drop f.pos
  else (s.contents f.inode).drop f.pos ++ s.contents s.active

def Tail.remaining (s : Tail ρ β) : List ρ :=
  match s.phase.handle with
  | some f => s.ahead f
  | none => s.contents s.active

/-- A rotation here loses nothing: the loop follows the active file, knows it by its id, and has not seen the
end of it before something was appended. -/
def Tail.Rotatable (s : Tail ρ β) : Prop :=
  match s.phase with
  | .reading f => f.inode = s.active
  | .checking f => f.inode = s.active ∧ f.pos = (s.contents s.active).length
  | _ => False

instance (s : Tail ρ β) : Decidable s.CaughtUp := inferInstanceAs (Decidable (_ = _))

instance (s : Tail ρ β) : Decidable s.Rotatable := by
  unfold Tail.Rotatable
  cases s.phase <;> infer_instance

def Action.rotates : Action ρ → Bool
  | .rotate _ => true
  | _ => false

/-- Every rotation of the run comes at such a moment. -/
def Undisturbed (s : Tail ρ β) : List (Action ρ) → Prop
  | [] => True
  | a :: as => (a.rotates → s.Rotatable) ∧
    match step platform bytes render s a with
    | none => True
    | some s' => Undisturbed s' as

instance (s : Tail ρ β) (as : List (Action ρ)) : Decidable (Undisturbed platform bytes render s as) := by
  induction as generalizing s with
  | nil => exact isTrue trivial
  | cons a as ih =>
    unfold Undisturbed
    cases step platform bytes render s a with
    | none => exact inferInstance
    | some s' =>
      have := ih s'
      exact inferInstance

/-! ## On POSIX -/

/-- What is printed and what lies ahead make up what was appended; the id is that of the open file, but while
it is being read anew. -/
structure Tracks (s : Tail ρ β) : Prop where
  all : s.printed ++ s.remaining.filterMap render = s.appended.filterMap render
  bounded : ∀ f, s.phase.handle = some f → f.pos ≤ (s.contents f.inode).length
  known : ∀ f, s.phase = .reading f ∨ s.phase = .checking f → s.currentId = some f.inode
  ended : ∀ f, s.phase = .checking f → f.inode ≠ s.active → f.pos = (s.contents f.inode).length
  fresh : ∀ f, s.phase = .recording f → f.inode = s.active

theorem tracks_following (contents : ℕ → List ρ) (active : ℕ) :
    Tracks render (following contents active : Tail ρ β) where
  all := by simp [following, Tail.remaining, Tail.ahead, Phase.handle]
  bounded f hf := by
    cases hf
    exact Nat.le_refl _
  known f hf := by rcases hf with hf | hf <;> cases hf
  ended f hf := by cases hf
  fresh f hf := by
    cases hf
    rfl

/-- The records of a file that is appended to. -/
theorem contents_append (s : Tail ρ β) (r : ρ) (inode : ℕ) :
    Function.update s.contents s.active (s.contents s.active ++ [r]) inode =
      if inode = s.active then s.contents s.active ++ [r] else s.contents inode := by
  rw [Function.update_apply]

/-- An appended record is read last. -/
theorem remaining_append (s : Tail ρ β) (r : ρ)
    (hb : ∀ f, s.phase.handle = some f → f.pos ≤ (s.contents f.inode).length) :
    Tail.remaining { s with
      contents := Function.update s.contents s.active (s.contents s.active ++ [r]), appended :=
      s.appended ++ [r] } = s.remaining ++ [r] := by
  unfold Tail.remaining
  dsimp only
  cases hf : s.phase.handle with
  | none => exact Function.update_self ..
  | some f =>
    unfold Tail.ahead
    dsimp only
    rw [Function.update_self, contents_append]
    split_ifs with hi
    · have hbound := hb f hf
      rw [hi] at hbound
      rw [List.drop_append_of_le_length hbound]
    · rw [List.append_assoc]

theorem length_contents_append (s : Tail ρ β) (r : ρ) (inode : ℕ) : (s.contents inode).length ≤
    (Function.update s.contents s.active (s.contents s.active ++ [r]) inode).length := by
  rw [contents_append]
  split_ifs with hi
  · rw [hi, List.length_append]
    exact Nat.le_add_right _ _
  · exact Nat.le_refl _

theorem tracks_append (s s' : Tail ρ β) (r : ρ) (h : Tracks render s)
    (hs : step platform bytes render s (.append r) = some s') : Tracks render s' := by
  cases hs
  refine ⟨?_, fun f hf => (h.bounded f hf).trans (length_contents_append s r f.inode), h.known, ?_, h.fresh⟩
  · rw [remaining_append s r h.bounded, List.filterMap_append, List.filterMap_append, ← List.append_assoc,
      h.all]
  · intro f hf hne
    dsimp only
    rw [contents_append, if_neg hne]
    exact h.ended f hf hne

theorem step_rotate (s s' : Tail ρ β) (inode : ℕ)
    (hs : step platform bytes render s (.rotate inode) = some s') :
    inode ≠ s.active ∧ (∀ f, s.phase.handle = some f → inode ≠ f.inode) ∧
      s' = { s with contents := Function.update s.contents inode [], active := inode } := by
  simp only [step] at hs
  split at hs
  · cases hs
  · next hno =>
    cases hs
    obtain ⟨hactive, hheld⟩ := not_or.mp hno
    refine ⟨hactive, fun f hf heq => hheld ?_, rfl⟩
    rw [hf, heq]
    rfl

theorem tracks_rotate (s s' : Tail ρ β) (inode : ℕ) (h : Tracks render s) (hready : s.Rotatable)
    (hs : step platform bytes render s (.rotate inode) = some s') : Tracks render s' := by
  obtain ⟨hactive, hheld, rfl⟩ := step_rotate platform bytes render s s' inode hs
  -- the open file is the one moved away, and it keeps its records
  have hopen : ∃ f, s.phase.handle = some f ∧ f.inode = s.active ∧
      (s.phase = .checking f → f.pos = (s.contents s.active).length) ∧ ∀ g, s.phase ≠ .recording g := by
    unfold Tail.Rotatable at hready
    cases hp : s.phase with
    | reading f =>
      rw [hp] at hready
      exact ⟨f, rfl, hready, by simp, by simp⟩
    | checking f =>
      rw [hp] at hready
      exact ⟨f, rfl, hready.1, fun _ => hready.2, by simp⟩
    | waiting => simp [hp] at hready
    | opening => simp [hp] at hready
    | recording f => simp [hp] at hready
  obtain ⟨f, hf, hfa, hend, hrec⟩ := hopen
  have hkept : Function.update s.contents inode [] f.inode = s.contents f.inode :=
    Function.update_of_ne (hheld f hf).symm ..
  have hsame : ∀ g, s.phase.handle = some g → g = f := fun g hg => Option.some.inj (hg.symm.trans hf)
  refine ⟨?_, ?_, h.known, ?_, fun g hg => absurd hg (hrec g)⟩
  · have hrest : Tail.remaining { s with
        contents := Function.update s.contents inode [], active := inode } = s.remaining := by
      unfold Tail.remaining
      dsimp only
      rw [hf]
      unfold Tail.ahead
      dsimp only
      rw [if_neg (hheld f hf).symm, if_pos hfa, hkept, Function.update_self, List.append_nil, hfa]
    rw [hrest]
    exact h.all
  · intro g hg
    dsimp only
    rw [hsame g hg, hkept]
    exact h.bounded f hf
  · intro g hg _
    have hgf : g = f := hsame g (by rw [hg]; rfl)
    rw [hgf] at hg ⊢
    dsimp only
    rw [hkept, hfa]
    exact hend hg

/-- A step of the loop that reads a line. -/
theorem tick_line (s : Tail ρ β) (f : Handle) (line : ρ) (hp : s.phase = .reading f)
    (hl : (s.contents f.inode)[f.pos]? = some line) :
    s.tick platform bytes render =
      { s with phase := .reading ⟨f.inode, f.pos + 1⟩, printed := s.printed ++ (render line).toList } := by
  unfold Tail.tick
  rw [hp]
  dsimp only
  rw [hl]

theorem tick_end (s : Tail ρ β) (f : Handle) (hp : s.phase = .reading f)
    (hl : (s.contents f.inode)[f.pos]? = none) :
    s.tick platform bytes render = { s with phase := .checking f } := by
  unfold Tail.tick
  rw [hp]
  dsimp only
  rw [hl]

theorem ahead_line (s : Tail ρ β) (f : Handle) (line : ρ) (hl : (s.contents f.inode)[f.pos]? = some line) :
    s.ahead f = line :: s.ahead ⟨f.inode, f.pos + 1⟩ := by
  obtain ⟨hlt, hget⟩ := List.getElem?_eq_some_iff.mp hl
  have hdrop : (s.contents f.inode).drop f.pos = line :: (s.contents f.inode).drop (f.pos + 1) := by
    rw [List.drop_eq_getElem_cons hlt, hget]
  unfold Tail.ahead
  dsimp only
  split_ifs with hi
  · rw [← hi, hdrop]
  · rw [hdrop, List.cons_append]

/-- The line leaves what lies ahead and, if it is shown, is printed. -/
theorem printed_line (s : Tail ρ β) (f : Handle) (line : ρ) (hl : (s.contents f.inode)[f.pos]? = some line) :
    (s.printed ++ (render line).toList) ++ (s.ahead ⟨f.inode, f.pos + 1⟩).filterMap render =
      s.printed ++ (s.ahead f).filterMap render := by
  rw [ahead_line s f line hl, List.append_assoc]
  cases hr : render line with
  | none => rw [List.filterMap_cons_none hr, Option.toList_none, List.nil_append]
  | some out => rw [List.filterMap_cons_some hr, Option.toList_some, List.singleton_append]

/-- The loop finds another id than the one it keeps. -/
theorem tick_checking (s : Tail ρ β) (f : Handle) (hp : s.phase = .checking f) :
    (fileId platform bytes s ≠ none ∧ fileId platform bytes s ≠ s.currentId ∧
      s.tick platform bytes render = { s with phase := .waiting }) ∨
    (fileId platform bytes s = s.currentId ∨ fileId platform bytes s = none) ∧
      s.tick platform bytes render = { s with phase := .reading f } := by
  unfold Tail.tick
  rw [hp]
  dsimp only
  split_ifs with hnew
  · exact .inl ⟨hnew.1, hnew.2, rfl⟩
  · refine .inr ⟨?_, rfl⟩
    by_contra hno
    rw [not_or] at hno
    exact hnew ⟨hno.2, hno.1⟩

theorem tick_appended (s : Tail ρ β) : (s.tick platform bytes render).appended = s.appended := by
  unfold Tail.tick
  cases s.phase with
  | reading f =>
    dsimp only
    cases (s.contents f.inode)[f.pos]? with
    | some line => rfl
    | none => rfl
  | checking f =>
    dsimp only
    split_ifs
    · rfl
    · rfl
  | waiting => rfl
  | opening => rfl
  | recording f => rfl

/-- A step of the loop only moves a line from what lies ahead to what is printed, if what it reads again, when
it takes the file under the path for another one, is what lay ahead of it. -/
theorem tick_remaining (s : Tail ρ β)
    (hagain : ∀ f, s.phase = .checking f → fileId platform bytes s ≠ s.currentId →
      (s.contents s.active).filterMap render = (s.ahead f).filterMap render) :
    (s.tick platform bytes render).printed ++ (s.tick platform bytes render).remaining.filterMap render =
      s.printed ++ s.remaining.filterMap render := by
  have hahead : ∀ f, s.phase.handle = some f → s.remaining = s.ahead f := by
    intro f hf
    rw [Tail.remaining, hf]
  cases hp : s.phase with
  | reading f =>
    rw [hahead f (by rw [hp]; rfl)]
    cases hl : (s.contents f.inode)[f.pos]? with
    | some line =>
      rw [tick_line platform bytes render s f line hp hl]
      exact printed_line render s f line hl
    | none =>
      rw [tick_end platform bytes render s f hp hl]
      rfl
  | checking f =>
    rw [hahead f (by rw [hp]; rfl)]
    rcases tick_checking platform bytes render s f hp with ⟨-, hnew, htick⟩ | ⟨-, htick⟩
    · rw [htick, ← hagain f hp hnew]
      rfl
    · rw [htick]
      rfl
  | waiting =>
    unfold Tail.tick Tail.remaining
    rw [hp]
    rfl
  | opening =>
    have hfirst : s.ahead ⟨s.active, 0⟩ = s.contents s.active := by
      unfold Tail.ahead
      rw [if_pos rfl]
      rfl
    have hnone : s.remaining = s.contents s.active := by
      rw [Tail.remaining, hp]
      rfl
    rw [hnone, ← hfirst]
    unfold Tail.tick
    rw [hp]
    rfl
  | recording f =>
    rw [hahead f (by rw [hp]; rfl)]
    unfold Tail.tick
    rw [hp]
    rfl

/-- No step reads behind the end of a file. -/
theorem tick_bounded (s : Tail ρ β) (h : ∀ f, s.phase.handle = some f → f.pos ≤ (s.contents f.inode).length) :
    ∀ f, (s.tick platform bytes render).phase.handle = some f →
    f.pos ≤ ((s.tick platform bytes render).contents f.inode).length := by
  intro g hg
  cases hp : s.phase with
  | reading f =>
    cases hl : (s.contents f.inode)[f.pos]? with
    | some line =>
      obtain ⟨hlt, -⟩ := List.getElem?_eq_some_iff.mp hl
      rw [tick_line platform bytes render s f line hp hl] at hg ⊢
      cases hg
      exact hlt
    | none =>
      rw [tick_end platform bytes render s f hp hl] at hg ⊢
      cases hg
      exact h _ (by rw [hp]; rfl)
  | checking f =>
    rcases tick_checking platform bytes render s f hp with ⟨-, -, htick⟩ | ⟨-, htick⟩
    · rw [htick] at hg
      cases hg
    · rw [htick] at hg ⊢
      cases hg
      exact h _ (by rw [hp]; rfl)
  | waiting =>
    unfold Tail.tick at hg
    rw [hp] at hg
    cases hg
  | opening =>
    unfold Tail.tick at hg
    rw [hp] at hg
    cases hg
    exact Nat.zero_le _
  | recording f =>
    unfold Tail.tick at hg ⊢
    rw [hp] at hg ⊢
    cases hg
    exact h _ (by rw [hp]; rfl)

theorem tracks_tick (s : Tail ρ β) (h : Tracks render s) : Tracks render (s.tick .posix bytes render) := by
  have hall : (s.tick .posix bytes render).printed ++ (s.tick .posix bytes render).remaining.filterMap render =
      (s.tick .posix bytes render).appended.filterMap render := by
    rw [tick_appended, ← h.all]
    refine tick_remaining .posix bytes render s fun f hp hnew => ?_
    -- another file stands under the path, and this one was read to its end
    have hne : f.inode ≠ s.active := by
      intro heq
      rw [h.known f (.inr hp), heq] at hnew
      exact hnew rfl
    unfold Tail.ahead
    rw [if_neg hne, h.ended f hp hne, List.drop_length, List.nil_append]
  have hbounded := tick_bounded .posix bytes render s h.bounded
  cases hp : s.phase with
  | reading f =>
    have hknown := h.known f (.inl hp)
    cases hl : (s.contents f.inode)[f.pos]? with
    | some line =>
      rw [tick_line .posix bytes render s f line hp hl] at hall hbounded ⊢
      refine ⟨hall, hbounded, fun g hg => ?_, fun g hg => by simp at hg, fun g hg => by simp at hg⟩
      simp only [Phase.reading.injEq, reduceCtorEq, or_false] at hg
      rw [← hg]
      exact hknown
    | none =>
      have hend : f.pos = (s.contents f.inode).length :=
        Nat.le_antisymm (h.bounded f (by rw [hp]; rfl)) (List.getElem?_eq_none_iff.mp hl)
      rw [tick_end .posix bytes render s f hp hl] at hall hbounded ⊢
      refine ⟨hall, hbounded, fun g hg => ?_, fun g hg _ => ?_, fun g hg => by simp at hg⟩
      · simp only [reduceCtorEq, Phase.checking.injEq, false_or] at hg
        rw [← hg]
        exact hknown
      · cases hg
        exact hend
  | checking f =>
    have hknown := h.known f (.inr hp)
    rcases tick_checking .posix bytes render s f hp with ⟨-, -, htick⟩ | ⟨-, htick⟩
    · rw [htick] at hall hbounded ⊢
      exact ⟨hall, hbounded, fun g hg => by simp at hg, fun g hg => by simp at hg, fun g hg => by simp at hg⟩
    · rw [htick] at hall hbounded ⊢
      refine ⟨hall, hbounded, fun g hg => ?_, fun g hg => by simp at hg, fun g hg => by simp at hg⟩
      simp only [Phase.reading.injEq, reduceCtorEq, or_false] at hg
      rw [← hg]
      exact hknown
  | waiting =>
    unfold Tail.tick at hall hbounded ⊢
    rw [hp] at hall hbounded ⊢
    exact ⟨hall, hbounded, fun g hg => by simp at hg, fun g hg => by simp at hg, fun g hg => by simp at hg⟩
  | opening =>
    unfold Tail.tick at hall hbounded ⊢
    rw [hp] at hall hbounded ⊢
    refine ⟨hall, hbounded, fun g hg => by simp at hg, fun g hg => by simp at hg, fun g hg => ?_⟩
    cases hg
    rfl
  | recording f =>
    have hfresh := h.fresh f hp
    unfold Tail.tick fileId at hall hbounded ⊢
    rw [hp] at hall hbounded ⊢
    refine ⟨hall, hbounded, fun g hg => ?_, fun g hg => by simp at hg, fun g hg => by simp at hg⟩
    simp only [Phase.reading.injEq, reduceCtorEq, or_false] at hg
    rw [← hg, hfresh]

theorem exec_tracks (as : List (Action ρ)) (s t : Tail ρ β) (hs : Tracks render s)
    (hrun : exec (step .posix bytes render) s as = some t) (hcalm : Undisturbed .posix bytes render s as) :
    Tracks render t := by
  induction as generalizing s with
  | nil =>
    cases hrun
    exact hs
  | cons a as ih =>
    obtain ⟨hready, hrest⟩ := hcalm
    cases hstep : step .posix bytes render s a with
    | none =>
      rw [exec, hstep] at hrun
      cases hrun
    | some s' =>
      rw [exec_cons _ _ _ _ _ hstep] at hrun
      rw [hstep] at hrest
      refine ih s' ?_ hrun hrest
      cases a with
      | append r => exact tracks_append .posix bytes render s s' r hs hstep
      | rotate inode => exact tracks_rotate .posix bytes render s s' inode hs (hready rfl) hstep
      | tick =>
        cases hstep
        exact tracks_tick bytes render s hs

/-! ## Catching up -/

/-- The loop alone, `n` steps. -/
def Tail.ticks (s : Tail ρ β) : ℕ → Tail ρ β
  | 0 => s
  | n + 1 => (s.tick .posix bytes render).ticks n

theorem ticks_exec (n : ℕ) (s : Tail ρ β) :
    exec (step .posix bytes render) s (List.replicate n .tick) = some (s.ticks bytes render n) := by
  induction n generalizing s with
  | zero => rfl
  | succ n ih => exact ih (s.tick .posix bytes render)

theorem ticks_add (m n : ℕ) (s : Tail ρ β) :
    s.ticks bytes render (m + n) = (s.ticks bytes render m).ticks bytes render n := by
  induction m generalizing s with
  | zero => rw [Nat.zero_add]; rfl
  | succ m ih => rw [Nat.succ_add, Tail.ticks, ih, Tail.ticks]

theorem ticks_tracks (n : ℕ) (s : Tail ρ β) (h : Tracks render s) : Tracks render (s.ticks bytes render n) := by
  induction n generalizing s with
  | zero => exact h
  | succ n ih => exact ih _ (tracks_tick bytes render s h)

theorem tick_frame (platform : Platform) (s : Tail ρ β) :
    (s.tick platform bytes render).contents = s.contents ∧ (s.tick platform bytes render).active = s.active ∧
      (s.tick platform bytes render).appended = s.appended := by
  unfold Tail.tick
  split
  · split
    · exact ⟨rfl, rfl, rfl⟩
    · exact ⟨rfl, rfl, rfl⟩
  · dsimp only
    split_ifs
    · exact ⟨rfl, rfl, rfl⟩
    · exact ⟨rfl, rfl, rfl⟩
  · exact ⟨rfl, rfl, rfl⟩
  · exact ⟨rfl, rfl, rfl⟩
  · exact ⟨rfl, rfl, rfl⟩

theorem ticks_frame (n : ℕ) (s : Tail ρ β) :
    (s.ticks bytes render n).contents = s.contents ∧ (s.ticks bytes render n).active = s.active ∧
      (s.ticks bytes render n).appended = s.appended := by
  induction n generalizing s with
  | zero => exact ⟨rfl, rfl, rfl⟩
  | succ n ih =>
    obtain ⟨hc, ha, hp⟩ := ih (s.tick .posix bytes render)
    obtain ⟨hc', ha', hp'⟩ := tick_frame bytes render .posix s
    exact ⟨hc.trans hc', ha.trans ha', hp.trans hp'⟩

/-- The loop reads the open file to its end. -/
theorem ticks_drain (n : ℕ) (s : Tail ρ β) (f : Handle) (hp : s.phase = .reading f)
    (hn : f.pos + n = (s.contents f.inode).length) :
    (s.ticks bytes render n).phase = .reading ⟨f.inode, (s.contents f.inode).length⟩ := by
  induction n generalizing s f with
  | zero =>
    rw [Nat.add_zero] at hn
    rw [← hn]
    exact hp
  | succ n ih =>
    obtain ⟨l, hl⟩ : ∃ l, (s.contents f.inode)[f.pos]? = some l := ⟨_, List.getElem?_eq_getElem (by omega)⟩
    rw [Tail.ticks, tick_line .posix bytes render s f l hp hl]
    exact ih _ ⟨f.inode, f.pos + 1⟩ rfl (by dsimp only; omega)

/-- A file that is being read is read to its end; if it is the active one, the loop has caught up. -/
theorem catchesUp_reading (s : Tail ρ β) (h : Tracks render s) (f : Handle) (hp : s.phase = .reading f)
    (hf : f.inode = s.active) :
    ∃ n, (s.ticks bytes render n).CaughtUp := by
  have hb := h.bounded f (by rw [hp]; rfl)
  refine ⟨(s.contents f.inode).length - f.pos, ?_⟩
  obtain ⟨hc, ha, -⟩ := ticks_frame bytes render ((s.contents f.inode).length - f.pos) s
  unfold Tail.CaughtUp
  rw [ticks_drain bytes render _ s f hp (by omega), hc, ha, hf]

theorem catchesUp_after (m : ℕ) (s : Tail ρ β)
    (h : ∃ n, ((s.ticks bytes render m).ticks bytes render n).CaughtUp) :
    ∃ n, (s.ticks bytes render n).CaughtUp := by
  obtain ⟨n, hn⟩ := h
  exact ⟨m + n, by rw [ticks_add]; exact hn⟩

theorem catchesUp_recording (s : Tail ρ β) (h : Tracks render s) (f : Handle) (hp : s.phase = .recording f) :
    ∃ n, (s.ticks bytes render n).CaughtUp := by
  have hphase : (s.ticks bytes render 1).phase = .reading f := by
    unfold Tail.ticks Tail.ticks Tail.tick
    rw [hp]
  have hactive : f.inode = (s.ticks bytes render 1).active :=
    (h.fresh f hp).trans (ticks_frame bytes render 1 s).2.1.symm
  exact catchesUp_after bytes render 1 s
    (catchesUp_reading bytes render _ (ticks_tracks bytes render 1 s h) f hphase hactive)

theorem catchesUp_waiting (s : Tail ρ β) (h : Tracks render s) (hp : s.phase = .waiting) :
    ∃ n, (s.ticks bytes render n).CaughtUp := by
  have hphase : (s.ticks bytes render 2).phase = .recording ⟨s.active, 0⟩ := by
    have hone : s.tick .posix bytes render = { s with phase := .opening } := by
      unfold Tail.tick
      rw [hp]
    unfold Tail.ticks Tail.ticks Tail.ticks
    rw [hone]
    rfl
  exact catchesUp_after bytes render 2 s (catchesUp_recording bytes render _
    (ticks_tracks bytes render 2 s h) _ hphase)

theorem catchesUp_checking (s : Tail ρ β) (h : Tracks render s) (f : Handle) (hp : s.phase = .checking f) :
    ∃ n, (s.ticks bytes render n).CaughtUp := by
  have htracks := ticks_tracks bytes render 1 s h
  have hframe := ticks_frame bytes render 1 s
  refine catchesUp_after bytes render 1 s ?_
  by_cases hf : f.inode = s.active
  · have hphase : (s.ticks bytes render 1).phase = .reading f := by
      unfold Tail.ticks Tail.ticks Tail.tick fileId
      rw [hp]
      dsimp only
      rw [if_neg (by rw [h.known f (.inr hp), hf]; simp)]
    exact catchesUp_reading bytes render _ htracks f hphase (hf.trans hframe.2.1.symm)
  · have hphase : (s.ticks bytes render 1).phase = .waiting := by
      unfold Tail.ticks Tail.ticks Tail.tick fileId
      rw [hp]
      dsimp only
      rw [if_pos ⟨by simp, by rw [h.known f (.inr hp)]; simpa using fun heq => hf heq.symm⟩]
    exact catchesUp_waiting bytes render _ htracks hphase

/-- Left alone, the loop catches up. -/
theorem catchesUp (s : Tail ρ β) (h : Tracks render s) : ∃ n, (s.ticks bytes render n).CaughtUp := by
  cases hp : s.phase with
  | reading f =>
    by_cases hf : f.inode = s.active
    · exact catchesUp_reading bytes render s h f hp hf
    · -- the rest of the file, and then its end
      have hb := h.bounded f (by rw [hp]; rfl)
      have hdrain := ticks_drain bytes render ((s.contents f.inode).length - f.pos) s f hp (by omega)
      have hframe := ticks_frame bytes render ((s.contents f.inode).length - f.pos) s
      refine catchesUp_after bytes render ((s.contents f.inode).length - f.pos) s
        (catchesUp_after bytes render 1 _ ?_)
      refine catchesUp_checking bytes render _ (ticks_tracks bytes render 1 _ (ticks_tracks bytes render _ s h))
        ⟨f.inode, (s.contents f.inode).length⟩ ?_
      unfold Tail.ticks Tail.ticks
      rw [tick_end .posix bytes render _ _ hdrain (by rw [hframe.1]; simp)]
  | checking f => exact catchesUp_checking bytes render s h f hp
  | waiting => exact catchesUp_waiting bytes render s h hp
  | opening =>
    have hphase : (s.ticks bytes render 1).phase = .recording ⟨s.active, 0⟩ := by
      unfold Tail.ticks Tail.ticks Tail.tick
      rw [hp]
    exact catchesUp_after bytes render 1 s (catchesUp_recording bytes render _
      (ticks_tracks bytes render 1 s h) _ hphase)
  | recording f => exact catchesUp_recording bytes render s h f hp

theorem caughtUp_printed (s : Tail ρ β) (h : Tracks render s) (hc : s.CaughtUp) :
    s.printed = s.appended.filterMap render := by
  have hall := h.all
  have hrest : s.remaining = [] := by
    unfold Tail.CaughtUp at hc
    unfold Tail.remaining
    rw [hc]
    simp [Phase.handle, Tail.ahead]
  rw [hrest, List.filterMap_nil, List.append_nil] at hall
  exact hall

/-- Where every rotation finds the loop ready for it, what is printed is at any time a first part of what was
appended, all of it once the loop has caught up; and left alone it catches up. -/
theorem follow_exact (contents : ℕ → List ρ) (active : ℕ) (as : List (Action ρ)) (s : Tail ρ β)
    (h : exec (step .posix bytes render) (following contents active) as = some s)
    (hcalm : Undisturbed .posix bytes render (following contents active) as) :
    s.printed <+: s.appended.filterMap render ∧ (s.CaughtUp → s.printed = s.appended.filterMap render) ∧
      ∃ n t, exec (step .posix bytes render) s (List.replicate n .tick) = some t ∧ t.CaughtUp ∧
      t.appended = s.appended ∧
        t.printed = s.appended.filterMap render := by
  have htracks := exec_tracks bytes render as _ s (tracks_following render contents active) h hcalm
  refine ⟨⟨_, htracks.all⟩, caughtUp_printed render s htracks, ?_⟩
  obtain ⟨n, hn⟩ := catchesUp bytes render s htracks
  have happended := (ticks_frame bytes render n s).2.2
  refine ⟨n, _, ticks_exec bytes render n s, hn, happended, ?_⟩
  rw [caughtUp_printed render _ (ticks_tracks bytes render n s htracks) hn, happended]

end Follow

/-- The records are numbers, and every one is shown. An idle loop, a record, a rotation while the loop waits,
another record. -/
def watched : List (Action ℕ) :=
  [.tick, .append 3, .tick, .tick, .tick, .rotate 2, .append 4, .tick, .tick, .tick, .tick, .tick, .tick]

theorem follow_exact_watched :
    ∃ s : Tail ℕ ℕ, exec (step .posix (fun _ => 1) some) (following (fun _ => [1]) 1) watched = some s ∧
    s.CaughtUp ∧
      s.printed = s.appended.filterMap some ∧ s.printed = [3, 4] := by
  have hcalm : Undisturbed .posix (fun _ => 1) some (following (fun _ => [1]) 1 : Tail ℕ ℕ) watched := by decide
  have hexact := (follow_exact (fun _ => 1) some (fun _ => [1]) 1 watched _ rfl hcalm).2.1
  exact ⟨_, rfl, by decide, hexact (by decide), by decide⟩

/-- The end of the file is read, then a record is appended and the file is rotated. -/
def overtaken : List (Action ℕ) := [.tick, .tick, .append 3, .rotate 2, .tick, .tick, .tick, .tick]

/-- Even with one rotation in the whole run, a record can be missed for good. -/
theorem rotation_loses_record :
    ¬ ∀ (as : List (Action ℕ)) (s : Tail ℕ ℕ),
    exec (step .posix (fun _ => 1) some) (following (fun _ => []) 1) as = some s →
      as.countP Action.rotates ≤ 1 → s.CaughtUp → s.printed = s.appended.filterMap some := by
  intro h
  have hlost := h overtaken _ rfl (by decide) (by decide)
  exact absurd hlost (by decide)

end Minilog.Cli
