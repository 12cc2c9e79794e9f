import Mathlib.Data.List.DropRight
import Minilog.Cli.Render
import Minilog.Lib.Effect
import Minilog.Lib.PythonJson

/-! A session of the cli-viewer: the loops of `tail_file` in `minilog-cli-viewer.py`.

`initial` are the lines of the file when it is opened. `followed` is what `readline` returns from then on,
call after call and whichever file is open, the empty string at the end of a file; the session goes on until
it is interrupted, here behind the last of them. The files open and can be read, and both streams accept every
write; stdout encodes strictly. -/
namespace Minilog.Cli.Session
open Lib Lib.Python Render
set_option autoImplicit false

/-- What was printed, line by line. -/
structure Console where
  stdout : List Text := []
  stderr : List Text := []
deriving DecidableEq

inductive Exit where
  | raised (e : PyError)
  | keyboardInterrupt
  | systemExit (code : ℕ)
deriving DecidableEq

abbrev M := Effect Console Exit

def print (t : Text) : M Unit :=
  match encode t with
  | .ok t => Effect.modify fun c => { c with stdout := c.stdout ++ [t] }
  | .error e => Effect.raise (.raised e)

def printErr (t : Text) : M Unit := Effect.modify fun c => { c with stderr := c.stderr ++ [t] }

section Tail

variable (py : Interpreter) (cfg : ViewerConfig)

/-- What is shown of a line of the file, if anything. -/
def formatted (line : List Char) : Option Text := if strip line = [] then none else render py cfg (strip line)

def showLine (line : List Char) : M Unit :=
  match formatted py cfg line with
  | some t => print t
  | none => return ()

/-- The loop of `show_all`. -/
def showLines : List (List Char) → M Unit
  | [] => return ()
  | line :: rest => do
    showLine py cfg line
    showLines rest

/-- `last_lines.append(formatted)`, on a `deque(maxlen=lines)`. -/
def append (lines : ℕ) (lastLines : List Text) (t : Text) : List Text :=
  (lastLines ++ [t]).drop (lastLines.length + 1 - lines)

/-- The loop that collects the last lines. -/
def collect (lines : ℕ) (lastLines : List Text) : List (List Char) → List Text
  | [] => lastLines
  | line :: rest =>
    match formatted py cfg line with
    | some t => collect lines (append lines lastLines t) rest
    | none => collect lines lastLines rest

def printAll : List Text → M Unit
  | [] => return ()
  | t :: rest => do
    print t
    printAll rest

/-- At the end of a file the loop waits, or opens the file that took its place. -/
def follow : List (List Char) → M Unit
  | [] => Effect.raise .keyboardInterrupt
  | line :: rest => do
    (if line = [] then return () else showLine py cfg line)
    follow rest

/-- Inside the `try`. With `lines` 0 the file is read from its end on. -/
def watch (lines : ℕ) (showAll : Bool) (initial followed : List (List Char)) : M Unit :=
  if showAll then showLines py cfg initial
  else do
    (if 0 < lines then printAll (collect py cfg lines [] initial) else return ())
    follow py cfg followed

def tailFile (lines : ℕ) (showAll : Bool) (initial followed : List (List Char)) : M Unit :=
  Effect.handle (watch py cfg lines showAll initial followed) fun exit =>
    match exit with
    | .keyboardInterrupt => printErr (literal "\nExiting...")
    | .raised e => do
      printErr (literal "Error: " ++ e.str)
      Effect.raise (.systemExit 1)
    | .systemExit code => Effect.raise (.systemExit code)

/-! ## What a session is to print -/

/-- The lines that are shown. -/
def shown (ls : List (List Char)) : List (List Char) := ls.filter fun line => (formatted py cfg line).isSome

/-- The lines that a session shows, in order. -/
def selected (lines : ℕ) (showAll : Bool) (initial followed : List (List Char)) : List (List Char) :=
  if showAll then shown py cfg initial else (shown py cfg initial).rtake lines ++ shown py cfg followed

/-- Every line was shown or skipped, and nothing but the interrupt ended the session. -/
def Completes (lines : ℕ) (showAll : Bool) (initial followed : List (List Char)) : Prop :=
  tailFile py cfg lines showAll initial followed {} =
    (.ok (), ⟨(selected py cfg lines showAll initial followed).filterMap (formatted py cfg),
      if showAll then [] else [literal "\nExiting..."]⟩)

/-! ## The loops -/

theorem printAll_singleton (t : Text) : printAll [t] = print t := by
  rw [printAll, printAll]
  exact Effect.bind_pure_eq (print t)

theorem printAll_append (ts us : List Text) : printAll (ts ++ us) = printAll ts >>= fun _ => printAll us := by
  induction ts with
  | nil =>
    rw [List.nil_append, printAll, pure_bind]
  | cons t ts ih => rw [List.cons_append, printAll, printAll, ih, Effect.bind_bind]

theorem showLine_eq (line : List Char) : showLine py cfg line = printAll (formatted py cfg line).toList := by
  unfold showLine
  cases formatted py cfg line with
  | none => rw [Option.toList_none, printAll]
  | some t => exact (printAll_singleton t).symm

theorem filterMap_cons_toList {α β : Type} (f : α → Option β) (a : α) (l : List α) :
    (a :: l).filterMap f = (f a).toList ++ l.filterMap f := by
  rw [List.filterMap_cons]
  cases f a with
  | none => rfl
  | some b => rfl

theorem showLines_eq (ls : List (List Char)) :
    showLines py cfg ls = printAll (ls.filterMap (formatted py cfg)) := by
  induction ls with
  | nil => rw [showLines, List.filterMap_nil, printAll]
  | cons line ls ih => rw [showLines, showLine_eq, ih, filterMap_cons_toList, printAll_append]

theorem formatted_nil : formatted py cfg [] = none := if_pos rfl

theorem follow_eq (ls : List (List Char)) :
    follow py cfg ls = printAll (ls.filterMap (formatted py cfg)) >>= fun _ =>
    Effect.raise .keyboardInterrupt := by
  induction ls with
  | nil => rw [follow, List.filterMap_nil, printAll, pure_bind]
  | cons line ls ih =>
    have hline : (if line = [] then return () else showLine py cfg line) =
        printAll (formatted py cfg line).toList := by
      split_ifs with hend
      · rw [hend, formatted_nil, Option.toList_none, printAll]
      · exact showLine_eq py cfg line
    rw [follow, hline, ih, filterMap_cons_toList, printAll_append, Effect.bind_bind]

/-! ## The last lines -/

theorem rtake_append {α : Type} (n : ℕ) (l m : List α) : (l.rtake n ++ m).rtake n = (l ++ m).rtake n := by
  unfold List.rtake
  rw [List.length_append, List.length_append, List.length_drop, List.drop_append, List.drop_append,
    List.drop_drop, List.length_drop]
  congr 2
  · omega
  · omega

theorem append_eq (lines : ℕ) (lastLines : List Text) (t : Text) :
    append lines lastLines t = (lastLines ++ [t]).rtake lines := by
  rw [append, List.rtake, List.length_append, List.length_singleton]

theorem collect_eq (lines : ℕ) (seen : List Text) (ls : List (List Char)) :
    collect py cfg lines (seen.rtake lines) ls = (seen ++ ls.filterMap (formatted py cfg)).rtake lines := by
  induction ls generalizing seen with
  | nil => rw [collect, List.filterMap_nil, List.append_nil]
  | cons line ls ih =>
    rw [collect]
    cases ht : formatted py cfg line with
    | none => rw [List.filterMap_cons_none ht, ih]
    | some t =>
      dsimp only
      rw [List.filterMap_cons_some ht, append_eq, rtake_append, ih, List.append_assoc, List.singleton_append]

theorem filterMap_shown (ls : List (List Char)) :
    (shown py cfg ls).filterMap (formatted py cfg) = ls.filterMap (formatted py cfg) := by
  induction ls with
  | nil => rfl
  | cons line ls ih =>
    cases ht : formatted py cfg line with
    | none => rw [shown, List.filter_cons_of_neg (by simp [ht]), List.filterMap_cons_none ht, ← ih, shown]
    | some t =>
      rw [shown, List.filter_cons_of_pos (by simp [ht]), List.filterMap_cons_some ht,
        List.filterMap_cons_some ht, ← ih, shown]

theorem filterMap_drop {α β : Type} (f : α → Option β) (l : List α) (k : ℕ) (h : ∀ a ∈ l, (f a).isSome) :
    (l.drop k).filterMap f = (l.filterMap f).drop k := by
  induction l generalizing k with
  | nil => rw [List.drop_nil, List.filterMap_nil, List.drop_nil]
  | cons a l ih =>
    obtain ⟨ha, hl⟩ := List.forall_mem_cons.mp h
    obtain ⟨b, hb⟩ := Option.isSome_iff_exists.mp ha
    cases k with
    | zero => rfl
    | succ k => rw [List.drop_succ_cons, ih k hl, List.filterMap_cons_some hb, List.drop_succ_cons]

theorem filterMap_rtake {α β : Type} (f : α → Option β) (l : List α) (n : ℕ) (h : ∀ a ∈ l, (f a).isSome) :
    (l.rtake n).filterMap f = (l.filterMap f).rtake n := by
  rw [List.rtake, filterMap_drop f l _ h, List.rtake, List.filterMap_length_eq_length.mpr h]

theorem filterMap_selected (lines : ℕ) (showAll : Bool) (initial followed : List (List Char)) :
    (selected py cfg lines showAll initial followed).filterMap (formatted py cfg) =
      if showAll then initial.filterMap (formatted py cfg)
      else (initial.filterMap (formatted py cfg)).rtake lines ++ followed.filterMap (formatted py cfg) := by
  have hshown : ∀ a ∈ shown py cfg initial, (formatted py cfg a).isSome := fun a ha => (List.mem_filter.mp ha).2
  rw [selected, apply_ite (List.filterMap (formatted py cfg)), List.filterMap_append,
    filterMap_rtake _ _ _ hshown, filterMap_shown, filterMap_shown]

/-! ## A session -/

theorem watch_eq (lines : ℕ) (showAll : Bool) (initial followed : List (List Char)) :
    watch py cfg lines showAll initial followed =
      printAll ((selected py cfg lines showAll initial followed).filterMap (formatted py cfg)) >>= fun _ =>
        if showAll then return () else Effect.raise .keyboardInterrupt := by
  rw [filterMap_selected]
  cases showAll with
  | true =>
    rw [watch, if_pos rfl, if_pos rfl, showLines_eq]
    exact (Effect.bind_pure_eq _).symm
  | false =>
    have hlast : (if 0 < lines then printAll (collect py cfg lines [] initial) else return ()) =
        printAll ((initial.filterMap (formatted py cfg)).rtake lines) := by
      split_ifs with hlines
      · have h := collect_eq py cfg lines [] initial
        rw [List.nil_append, List.rtake_nil] at h
        rw [h]
      · have hzero : lines = 0 := by omega
        rw [hzero, List.rtake_zero, printAll]
    rw [watch, if_neg Bool.false_ne_true, if_neg Bool.false_ne_true, hlast, follow_eq, printAll_append,
      Effect.bind_bind]
    rfl

theorem printAll_ok (ts : List Text) (c : Console) (h : ∀ t ∈ ts, Scalars t) :
    printAll ts c = (.ok (), { c with stdout := c.stdout ++ ts }) := by
  induction ts generalizing c with
  | nil =>
    rw [List.append_nil]
    rfl
  | cons t ts ih =>
    obtain ⟨ht, hts⟩ := List.forall_mem_cons.mp h
    have hprint : print t c = (.ok (), { c with stdout := c.stdout ++ [t] }) := by
      rw [print, encode, if_pos ht]
      rfl
    rw [printAll, Effect.bind_of_ok _ _ _ _ _ hprint, ih _ hts, List.append_assoc, List.singleton_append]

/-- The first text that cannot be encoded ends the loop. -/
theorem printAll_raises (ts : List Text) (c : Console) (h : ¬ ∀ t ∈ ts, Scalars t) :
    ∃ before t after, ts = before ++ t :: after ∧
    ¬ Scalars t ∧ printAll ts c = (.error (.raised (.unicodeEncodeError t)),
      { c with stdout := c.stdout ++ before }) := by
  induction ts generalizing c with
  | nil => exact absurd (fun t ht => by cases ht) h
  | cons t ts ih =>
    by_cases ht : Scalars t
    · have hrest : ¬ ∀ t ∈ ts, Scalars t := fun hall => h (List.forall_mem_cons.mpr ⟨ht, hall⟩)
      have hprint := printAll_ok [t] c (List.forall_mem_singleton.mpr ht)
      obtain ⟨before, u, after, hts, hu, hrun⟩ := ih { c with stdout := c.stdout ++ [t] } hrest
      refine ⟨t :: before, u, after, by rw [hts, List.cons_append], hu, ?_⟩
      rw [printAll_singleton] at hprint
      rw [printAll, Effect.bind_of_ok _ _ _ _ _ hprint, hrun, List.append_assoc, List.singleton_append]
    · have hprint : print t c = (.error (.raised (.unicodeEncodeError t)), c) := by
        rw [print, encode, if_neg ht]
        rfl
      refine ⟨[], t, ts, rfl, ht, ?_⟩
      rw [printAll, Effect.bind_of_error _ _ _ _ _ hprint, List.append_nil]

section Session

variable (lines : ℕ) (showAll : Bool) (initial followed : List (List Char))

theorem completes_of_scalars (h : ∀ t ∈ (selected py cfg lines showAll initial followed).filterMap
    (formatted py cfg), Scalars t) :
    Completes py cfg lines showAll initial followed := by
  have hprinted := printAll_ok _ {} h
  unfold Completes tailFile Effect.handle
  rw [watch_eq, Effect.bind_of_ok _ _ _ _ _ hprinted]
  cases showAll with
  | true => rfl
  | false => rfl

/-- Otherwise the session ends at the first text that cannot be encoded. -/
theorem session_ends (h : ¬ ∀ t ∈ (selected py cfg lines showAll initial followed).filterMap
    (formatted py cfg), Scalars t) :
    ∃ before t after, (selected py cfg lines showAll initial followed).filterMap (formatted py cfg) =
      before ++ t :: after ∧ ¬ Scalars t ∧
      tailFile py cfg lines showAll initial followed {} =
        (.error (.systemExit 1), ⟨before, [literal "Error: " ++ (PyError.unicodeEncodeError t).str]⟩) := by
  obtain ⟨before, t, after, hsplit, ht, hrun⟩ := printAll_raises _ {} h
  refine ⟨before, t, after, hsplit, ht, ?_⟩
  unfold tailFile Effect.handle
  rw [watch_eq, Effect.bind_of_error _ _ _ _ _ hrun]
  rfl

/-- A line that is shown, and what is shown of it. -/
theorem scalars_formatted (line : List Char) (t : Text) (h : formatted py cfg line = some t) :
    Scalars t ↔ Printable py cfg (strip line) := by
  unfold formatted at h
  split_ifs at h
  exact render_scalars py cfg (strip line) t h

theorem mem_selected (line : List Char) (h : line ∈ selected py cfg lines showAll initial followed) :
    (formatted py cfg line).isSome = true := by
  have hshown : ∀ ls, line ∈ shown py cfg ls → (formatted py cfg line).isSome = true :=
    fun ls hls => (List.mem_filter.mp hls).2
  unfold selected at h
  split_ifs at h
  · exact hshown _ h
  · rcases List.mem_append.mp h with hlast | hlater
    · exact hshown _ (List.mem_of_mem_drop hlast)
    · exact hshown _ hlater

/-- A session goes through every line exactly when every line it shows is printable. -/
theorem session_completes_iff :
    Completes py cfg lines showAll initial followed ↔
      ∀ line ∈ selected py cfg lines showAll initial followed, Printable py cfg (strip line) := by
  have hprintable : (∀ t ∈ (selected py cfg lines showAll initial followed).filterMap (formatted py cfg),
      Scalars t) ↔
      ∀ line ∈ selected py cfg lines showAll initial followed, Printable py cfg (strip line) := by
    refine ⟨fun hall line hline => ?_, fun hall t ht => ?_⟩
    · obtain ⟨t, ht⟩ := Option.isSome_iff_exists.mp
        (mem_selected py cfg lines showAll initial followed line hline)
      exact (scalars_formatted py cfg line t ht).mp (hall t (List.mem_filterMap.mpr ⟨line, hline, ht⟩))
    · obtain ⟨line, hline, hsome⟩ := List.mem_filterMap.mp ht
      exact (scalars_formatted py cfg line t hsome).mpr (hall line hline)
  rw [← hprintable]
  refine ⟨fun hcompletes => ?_, completes_of_scalars py cfg lines showAll initial followed⟩
  by_contra hraises
  obtain ⟨before, t, after, -, -, hrun⟩ := session_ends py cfg lines showAll initial followed hraises
  rw [Completes, hrun] at hcompletes
  cases hcompletes

end Session

end Tail

/-! ## Lines that end a session -/

/-- `{"message":"text"}`, the text in escapes. -/
def messageLine (t : Text) : List Char := objectLine "message".toList t ++ ['\n']

theorem strip_messageLine (t : Text) : strip (messageLine t) = objectLine "message".toList t := by
  obtain ⟨middle, hmiddle⟩ : ∃ middle, objectLine "message".toList t = '\x7b' :: (middle ++ ['\x7d']) := by
    refine ⟨'"' :: ("message".toList ++ '"' :: ':' :: '"' :: (escaped t ++ ['"'])), ?_⟩
    simp [objectLine]
  have hreverse : ('\x7b' :: (middle ++ ['\x7d']) ++ ['\n']).reverse = '\n' :: '\x7d' ::
      (middle.reverse ++ ['\x7b']) := by simp
  rw [messageLine, hmiddle, strip, List.cons_append, List.dropWhile_cons_of_neg (by decide),
    ← List.cons_append, hreverse, List.dropWhile_cons_of_pos (by decide),
    List.dropWhile_cons_of_neg (by decide)]
  simp

/-- A surrogate in the message that is not half of a pair, written as JSON writes it, ends the session under
every configuration that shows messages and filters none. -/
theorem surrogate_ends (py : Interpreter) (float : List Char → FloatValue) (hloads : py.loads = loads float)
    (cfg : ViewerConfig) (hcolumn : literal "message" ∈ cfg.columns) (hexclude : cfg.excludePatterns = [])
    (hinclude : cfg.includePatterns = []) (t : Text) (ht : Unpaired t) (hsurrogate : ¬ Scalars t)
    (lines : ℕ) (initial : List (List Char)) (followed : List (List Char))
    (hline : messageLine t ∈ followed) : ∃ console, tailFile py cfg lines false initial followed {} =
      (.error (.systemExit 1), console) := by
  have hrecord : py.loads (strip (messageLine t)) = .ok (messageOnly t) := by
    rw [strip_messageLine, hloads]
    exact loads_objectLine float _ t (by decide +kernel) ht
  obtain ⟨u, hu⟩ := render_message py cfg t (strip (messageLine t)) hexclude hinclude hrecord
  have hformatted : formatted py cfg (messageLine t) = some u := by
    rw [formatted, if_neg (by rw [strip_messageLine]; exact List.cons_ne_nil _ _), hu]
  have hraises : ¬ Scalars u := by
    rw [scalars_formatted py cfg _ u hformatted]
    exact not_printable_message py cfg t _ hcolumn hsurrogate hrecord
  have hnot : ¬ ∀ v ∈ (selected py cfg lines false initial followed).filterMap (formatted py cfg),
      Scalars v := by
    intro hall
    refine hraises (hall u ?_)
    rw [filterMap_selected, if_neg Bool.false_ne_true]
    exact List.mem_append_right _ (List.mem_filterMap.mpr ⟨_, hline, hformatted⟩)
  obtain ⟨before, v, after, -, -, hrun⟩ := session_ends py cfg lines false initial followed hnot
  exact ⟨_, hrun⟩

/-- The decoder as it is; elsewhere ASCII, no limits and no timestamps. -/
def interpreter : Interpreter where
  loads := loads fun cs => ⟨cs, false⟩
  lower t := t.map fun c => if 0x41 ≤ c.ord ∧ c.ord ≤ 0x5A then chr (c.ord + 0x20) else c
  upper t := t.map fun c => if 0x61 ≤ c.ord ∧ c.ord ≤ 0x7A then chr (c.ord - 0x20) else c
  isprintable c := 0x20 ≤ c.ord && c.ord ≤ 0x7E
  tooDeep _ := false
  fromisoformat _ := .error (.valueError (literal "Invalid isoformat string"))

example : tailFile interpreter {} 10 false [] [messageLine [.surrogate 0]] {} =
    (.error (.systemExit 1),
      ⟨[],
        [literal "Error: 'utf-8' codec can't encode character '\\ud800' in position 0: surrogates not allowed"]⟩) := by
  decide +kernel

/-- One line is enough, with the default configuration. -/
theorem record_ends_session : ¬ ∀ (py : Interpreter) (cfg : ViewerConfig) (lines : ℕ) (showAll : Bool)
    (initial followed : List (List Char)), Completes py cfg lines showAll initial followed := by
  intro h
  have hcompletes := h interpreter {} 10 false [] [messageLine [.surrogate 0]]
  obtain ⟨console, hends⟩ := surrogate_ends interpreter _ rfl {} (by simp) rfl rfl [.surrogate 0]
    ⟨fun _ _ hd => (by cases hd), trivial⟩ (by decide) 10 [] [messageLine [.surrogate 0]] List.mem_cons_self
  rw [Completes, hends] at hcompletes
  cases hcompletes

end Minilog.Cli.Session
