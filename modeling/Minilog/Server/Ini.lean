import Minilog.Lib.Transition
import Minilog.Server.Config

/-! The text of a configuration file and the tree `read_ini` makes of it.

`read_ini` is library code: `iniTree` says how it reads a text that it accepts, and `ReadsIni` is what is
assumed of it. A section that is being read is kept apart from those before it, because it is dropped when it
ends without a key. The rest is what acceptance by `loadConfig` says about the tree, section by section. -/
namespace Minilog.Server
open Lib
set_option autoImplicit false

abbrev semicolon : UInt8 := 0x3B
abbrev hash : UInt8 := 0x23
abbrev leftBracket : UInt8 := 0x5B
abbrev rightBracket : UInt8 := 0x5D
abbrev equalsSign : UInt8 := 0x3D

/-! ## White space -/

theorem rdropWhile_cons {α : Type} (p : α → Bool) (a : α) (l : List α) :
    (a :: l).rdropWhile p = if (a :: l).all p then [] else a :: l.rdropWhile p := by
  induction l using List.reverseRecOn with
  | nil =>
    rw [List.rdropWhile_singleton, List.rdropWhile_nil, List.all_cons, List.all_nil, Bool.and_true]
  | append_singleton l b ih =>
    rw [← List.cons_append]
    cases hb : p b with
    | true =>
      rw [List.rdropWhile_concat_pos p _ b hb, List.rdropWhile_concat_pos p _ b hb, ih, List.all_append]
      simp [hb]
    | false =>
      have hb' : ¬p b = true := by rw [hb]; exact Bool.false_ne_true
      rw [List.rdropWhile_concat_neg p _ b hb', List.rdropWhile_concat_neg p _ b hb', List.all_append]
      simp [hb]

/-- The two ends can be trimmed in either order. -/
theorem trim_eq (s : Bytes) : trim s = (s.rdropWhile isSpace).dropWhile isSpace := by
  unfold trim
  induction s with
  | nil => rfl
  | cons c s ih =>
    cases hc : isSpace c with
    | true =>
      rw [List.dropWhile_cons_of_pos hc, rdropWhile_cons, ih, List.all_cons, hc, Bool.true_and]
      split
      · next hall => rw [List.rdropWhile_eq_nil_iff.mpr (List.all_eq_true.mp hall)]
      · rw [List.dropWhile_cons_of_pos hc]
    | false =>
      have hc' : ¬isSpace c = true := by rw [hc]; exact Bool.false_ne_true
      rw [List.dropWhile_cons_of_neg hc', rdropWhile_cons, List.all_cons, hc, Bool.false_and,
        if_neg Bool.false_ne_true, List.dropWhile_cons_of_neg hc']

theorem trim_head (s : Bytes) : ∀ c ∈ (trim s).head?, isSpace c = false := by
  intro c hc
  rw [trim_eq] at hc
  have hnot := List.head?_dropWhile_not isSpace (s.rdropWhile isSpace)
  rw [Option.mem_def] at hc
  rw [hc] at hnot
  exact hnot

theorem trim_trim (s : Bytes) : trim (trim s) = trim s := by
  have hhead := trim_head s
  have hfront : (trim s).dropWhile isSpace = trim s := by
    cases hs : trim s with
    | nil => rfl
    | cons c t =>
      rw [hs] at hhead
      exact List.dropWhile_cons_of_neg (by rw [hhead c rfl]; exact Bool.false_ne_true)
  show ((trim s).dropWhile isSpace).rdropWhile isSpace = trim s
  rw [hfront]
  exact List.rdropWhile_idempotent _ _

theorem trim_split (s : Bytes) :
    ∃ a b, s = a ++ (trim s ++ b) ∧ (∀ c ∈ a, isSpace c = true) ∧ ∀ c ∈ b, isSpace c = true := by
  refine ⟨s.takeWhile isSpace, (s.dropWhile isSpace).rtakeWhile isSpace, ?_,
    fun c hc => List.mem_takeWhile_imp hc, fun c hc => List.mem_rtakeWhile_imp hc⟩
  rw [trim, List.rdropWhile_append_rtakeWhile, List.takeWhile_append_dropWhile]

theorem trim_subset (s : Bytes) : trim s ⊆ s := fun _ hc =>
  List.dropWhile_subset _ ((List.rdropWhile_prefix _ _).subset hc)

/-! ## Lines -/

/-- What a line says: nothing, the header of a section, a key with its value, or nothing that can be read. -/
inductive IniLine where
  | blank
  | header (name : Bytes)
  | pair (key value : Bytes)
  | malformed
deriving DecidableEq

/-- A line whose white space at both ends is gone. -/
def iniTrimmed : Bytes → IniLine
  | [] => .blank
  | c :: line =>
    if c = semicolon ∨ c = hash then .blank
    else if c = leftBracket then
      if rightBracket ∈ line then .header (trim (line.takeWhile (· ≠ rightBracket))) else .malformed
    else if equalsSign ∈ c :: line then
      .pair (trim ((c :: line).takeWhile (· ≠ equalsSign)))
      (trim (((c :: line).dropWhile (· ≠ equalsSign)).drop 1))
    else .malformed

def iniLine (line : Bytes) : IniLine := iniTrimmed (trim line)

/-- A key and a value stand around the first equals sign. -/
theorem iniLine_pair (line key value : Bytes) (h : iniLine line = .pair key value) :
    ∃ a rest, trim line = a ++ equalsSign :: rest ∧ equalsSign ∉ a ∧ key = trim a ∧ value = trim rest ∧
      (trim line).head? ≠ some leftBracket := by
  unfold iniLine at h
  generalize trim line = t at h ⊢
  cases t with
  | nil => cases h
  | cons c t =>
    rw [iniTrimmed] at h
    split at h
    · cases h
    · split at h
      · split at h
        · cases h
        · cases h
      · next hbracket =>
        split at h
        · next hmem =>
          cases h
          obtain ⟨a, rest, hsplit, ha⟩ := List.eq_append_cons_of_mem hmem
          have hall : ∀ d ∈ a, decide (d ≠ equalsSign) = true :=
            fun d hd => decide_eq_true fun heq => ha (heq ▸ hd)
          refine ⟨a, rest, hsplit, ha, ?_, ?_, ?_⟩
          · rw [hsplit, List.takeWhile_append_of_pos hall, List.takeWhile_cons_of_neg (by simp),
              List.append_nil]
          · rw [hsplit, List.dropWhile_append_of_pos hall, List.dropWhile_cons_of_neg (by simp)]
            rfl
          · intro heq
            exact hbracket (Option.some.inj heq)
        · cases h

theorem iniLine_header (line name : Bytes) (h : iniLine line = .header name) :
    (trim line).head? = some leftBracket := by
  unfold iniLine at h
  generalize trim line = t at h ⊢
  cases t with
  | nil => cases h
  | cons c t =>
    rw [iniTrimmed] at h
    split at h
    · cases h
    · split at h
      · next hbracket => rw [hbracket, List.head?_cons]
      · split at h
        · cases h
        · cases h

/-! ## Sections -/

/-- `closed` are the nodes before the section `opened`. -/
structure Ini where
  closed : Tree := []
  opened : Option (Bytes × Node) := none
deriving DecidableEq

/-- The nodes, the last section dropped if it is empty. -/
def Ini.flush (ini : Ini) : Tree :=
  match ini.opened with
  | none => ini.closed
  | some p => if p.2.keys = [] then ini.closed else ini.closed ++ [p]

def Node.push (node : Node) (key value : Bytes) : Node := { node with keys := node.keys ++ [(key, value)] }

/-- Keys before the first section are nodes of their own. -/
def Ini.line (ini : Ini) (line : Bytes) : Option Ini :=
  match iniLine line with
  | .blank => some ini
  | .header name => if name ∈ ini.flush.map Prod.fst then none else some ⟨ini.flush, some (name, {})⟩
  | .pair key value =>
    match ini.opened with
    | none =>
      if key ∈ ini.closed.map Prod.fst then none
        else some { ini with closed := ini.closed ++ [(key, { data := value })] }
    | some (name, node) =>
      if key ∈ node.keys.map Prod.fst then none
      else some { ini with opened := some (name, node.push key value) }
  | .malformed => none

def iniTree (text : Bytes) : Option Tree := (exec Ini.line {} (scanLines text)).map Ini.flush

/-- What `read_ini` accepts it reads like this. -/
def ReadsIni (readIni : Bytes → Option Tree) : Prop :=
  ∀ text tree, readIni text = some tree → iniTree text = some tree

/-- Every step, by what the line says. -/
theorem line_cases (ini ini' : Ini) (line : Bytes) (h : ini.line line = some ini') :
    (iniLine line = .blank ∧ ini' = ini) ∨
    (∃ name, iniLine line = .header name ∧ name ∉ ini.flush.map Prod.fst ∧
      ini' = ⟨ini.flush, some (name, {})⟩) ∨
    (∃ key value, iniLine line = .pair key value ∧ ini.opened = none ∧ key ∉ ini.closed.map Prod.fst ∧
      ini' = { ini with closed := ini.closed ++ [(key, { data := value })] }) ∨
    (∃ key value name node, iniLine line = .pair key value ∧ ini.opened = some (name, node) ∧
      key ∉ node.keys.map Prod.fst ∧
        ini' = { ini with opened := some (name, node.push key value) }) := by
  unfold Ini.line at h
  cases hl : iniLine line with
  | blank =>
    rw [hl] at h
    cases h
    exact .inl ⟨rfl, rfl⟩
  | header name =>
    rw [hl] at h
    dsimp only at h
    split at h
    · cases h
    · next hnew =>
      cases h
      exact .inr (.inl ⟨name, rfl, hnew, rfl⟩)
  | pair key value =>
    rw [hl] at h
    cases ho : ini.opened with
    | none =>
      rw [ho] at h
      dsimp only at h
      split at h
      · cases h
      · next hnew =>
        cases h
        exact .inr (.inr (.inl ⟨key, value, rfl, rfl, hnew, rfl⟩))
    | some p =>
      rw [ho] at h
      dsimp only at h
      split at h
      · cases h
      · next hnew =>
        cases h
        exact .inr (.inr (.inr ⟨key, value, p.1, p.2, rfl, rfl, hnew, rfl⟩))
  | malformed =>
    rw [hl] at h
    cases h

theorem lookup_none {α β : Type} [BEq α] [LawfulBEq α] (l : List (α × β)) (key : α)
    (h : key ∉ l.map Prod.fst) : l.lookup key = none := by
  rw [List.lookup_eq_none_iff]
  intro p hp
  exact bne_iff_ne.mpr fun heq => h (List.mem_map.mpr ⟨p, hp, heq.symm⟩)

theorem Node.get_push (node : Node) (key value : Bytes) (h : key ∉ node.keys.map Prod.fst) :
    (node.push key value).get key = some value := by
  unfold Node.push Node.get
  rw [List.lookup_append, lookup_none node.keys key h, Option.none_or, List.lookup_cons_self]

theorem Node.get_push_other (node : Node) (key value other : Bytes) (h : other ≠ key) :
    (node.push key value).get other = node.get other := by
  unfold Node.push Node.get
  rw [List.lookup_append, List.lookup_cons, beq_false_of_ne h]
  exact Option.or_none

theorem Node.get_prefix (node node' : Node) (key value : Bytes) (hpre : node.keys <+: node'.keys)
    (h : node.get key = some value) :
    node'.get key = some value := by
  obtain ⟨more, hmore⟩ := hpre
  unfold Node.get at h ⊢
  rw [← hmore, List.lookup_append, h, Option.some_or]

theorem Tree.get_snoc_nothing (tree : Tree) (name sec key : Bytes) (node : Node) (h : node.get key = none) :
    Tree.get (tree ++ [(name, node)]) sec key = tree.get sec key := by
  unfold Tree.get
  rw [List.lookup_append]
  cases tree.lookup sec with
  | some found => rfl
  | none =>
    rw [Option.none_or, List.lookup_cons]
    cases sec == name with
    | true => exact h
    | false => rfl

theorem Tree.get_snoc_other (tree : Tree) (name sec key : Bytes) (node : Node) (h : sec ≠ name) :
    Tree.get (tree ++ [(name, node)]) sec key = tree.get sec key := by
  unfold Tree.get
  rw [List.lookup_append, List.lookup_cons, beq_false_of_ne h]
  exact congrArg (Option.bind · fun n : Node => n.get key) Option.or_none

theorem Tree.get_snoc (tree : Tree) (name key : Bytes) (node : Node) (h : name ∉ tree.map Prod.fst) :
    Tree.get (tree ++ [(name, node)]) name key = node.get key := by
  unfold Tree.get
  rw [List.lookup_append, lookup_none tree name h, Option.none_or, List.lookup_cons_self, Option.bind_some]

/-- Only the lines `p` holds of count, when the others are blank. -/
theorem exec_content (p : Bytes → Bool) (hp : ∀ line, p line = false → iniTrimmed line = .blank)
    (lines : List Bytes) (ini : Ini) :
    exec Ini.line ini ((lines.map trim).filter p) = exec Ini.line ini lines := by
  have hsame : ∀ (i : Ini) (line : Bytes), i.line (trim line) = i.line line := by
    intro i line
    unfold Ini.line iniLine
    rw [trim_trim]
  induction lines generalizing ini with
  | nil => rfl
  | cons line lines ih =>
    rw [List.map_cons, List.filter_cons]
    split
    · rw [exec, exec, hsame]
      exact congrArg _ (funext ih)
    · next hnot =>
      have hblank : iniLine line = .blank := hp (trim line) (by simpa using hnot)
      have hstep : ini.line line = some ini := by
        unfold Ini.line
        rw [hblank]
      rw [ih, exec_cons _ _ _ _ _ hstep]

/-- What has been read stays, and the open section may get more keys. -/
theorem exec_grows (lines : List Bytes) (ini fin : Ini) (h : exec Ini.line ini lines = some fin) :
    (∀ p ∈ ini.closed, p ∈ fin.flush) ∧
      ∀ name node, ini.opened = some (name, node) → node.keys ≠ [] →
        ∃ node', (name, node') ∈ fin.flush ∧ node.keys <+: node'.keys := by
  have hflush : ∀ i : Ini, (∀ p ∈ i.closed, p ∈ i.flush) ∧ ∀ p, i.opened = some p → p.2.keys ≠ [] →
      p ∈ i.flush := by
    intro i
    unfold Ini.flush
    cases i.opened with
    | none => exact ⟨fun _ hp => hp, fun _ hp => (by cases hp)⟩
    | some q =>
      dsimp only
      split
      · next hempty =>
        refine ⟨fun _ hp => hp, fun p hp hkeys => ?_⟩
        cases hp
        exact absurd hempty hkeys
      · refine ⟨fun _ hp => List.mem_append_left _ hp, fun p hp _ => ?_⟩
        cases hp
        exact List.mem_append_right _ (List.mem_singleton_self q)
  induction lines generalizing ini with
  | nil =>
    cases h
    exact ⟨(hflush fin).1, fun name node ho hkeys => ⟨node, (hflush fin).2 _ ho hkeys, List.prefix_refl _⟩⟩
  | cons line lines ih =>
    cases hl : ini.line line with
    | none =>
      rw [exec, hl] at h
      cases h
    | some ini' =>
      rw [exec_cons _ _ _ _ _ hl] at h
      obtain ⟨hclosed, hopened⟩ := ih ini' h
      rcases line_cases ini ini' line hl with ⟨-, rfl⟩ | ⟨name, -, -, rfl⟩ | ⟨key, value, -, hnone, -, rfl⟩ |
        ⟨key, value, name, node, -, hsome, -, rfl⟩
      · exact ⟨hclosed, hopened⟩
      · refine ⟨fun p hp => hclosed p ((hflush ini).1 p hp), fun other node ho hkeys => ?_⟩
        exact ⟨node, hclosed _ ((hflush ini).2 _ ho hkeys), List.prefix_refl _⟩
      · refine ⟨fun p hp => hclosed p (List.mem_append_left _ hp), fun other node ho => ?_⟩
        rw [hnone] at ho
        cases ho
      · refine ⟨hclosed, fun other node₀ ho hkeys => ?_⟩
        rw [hsome] at ho
        cases ho
        obtain ⟨node', hmem, hpre⟩ := hopened name _ rfl (by simp [Node.push])
        exact ⟨node', hmem, (List.prefix_append _ _).trans hpre⟩

theorem mem_of_mem_flush (ini : Ini) : ∀ p ∈ ini.flush, p ∈ ini.closed ++ ini.opened.toList := by
  intro p hp
  unfold Ini.flush at hp
  cases ho : ini.opened with
  | none =>
    rw [ho] at hp
    exact List.mem_append_left _ hp
  | some q =>
    rw [ho] at hp
    dsimp only at hp
    split at hp
    · exact List.mem_append_left _ hp
    · exact hp

/-- All values are of one line. -/
def Ini.OneLine (ini : Ini) : Prop := ∀ p ∈ ini.closed ++ ini.opened.toList, ∀ kv ∈ p.2.keys, lf ∉ kv.2

theorem Ini.OneLine.line (ini ini' : Ini) (line : Bytes) (h : ini.OneLine) (hline : lf ∉ line)
    (hstep : ini.line line = some ini') :
    ini'.OneLine := by
  rcases line_cases ini ini' line hstep with ⟨-, rfl⟩ | ⟨name, -, -, rfl⟩ | ⟨key, value, -, hnone, -, rfl⟩ |
    ⟨key, value, name, node, hl, hsome, -, rfl⟩
  · exact h
  · intro p hp kv hkv
    rcases List.mem_append.mp hp with hp | hp
    · exact h p (mem_of_mem_flush ini p hp) kv hkv
    · rw [List.mem_singleton.mp hp] at hkv
      cases hkv
  · intro p hp kv hkv
    rw [hnone, Option.toList_none, List.append_nil] at hp
    rcases List.mem_append.mp hp with hp | hp
    · exact h p (List.mem_append_left _ hp) kv hkv
    · rw [List.mem_singleton.mp hp] at hkv
      cases hkv
  · intro p hp kv hkv
    rcases List.mem_append.mp hp with hp | hp
    · exact h p (List.mem_append_left _ hp) kv hkv
    · rw [List.mem_singleton.mp hp] at hkv
      rcases List.mem_append.mp hkv with hkv | hkv
      · refine h (name, node) (List.mem_append_right _ ?_) kv hkv
        rw [hsome]
        exact List.mem_singleton_self _
      · obtain ⟨a, rest, htrim, -, -, hvalue, -⟩ := iniLine_pair line key value hl
        rw [List.mem_singleton.mp hkv]
        intro hmem
        rw [hvalue] at hmem
        refine hline (trim_subset line ?_)
        rw [htrim]
        exact List.mem_append_right _ (List.mem_cons_of_mem _ (trim_subset rest hmem))

/-- A value of the tree is part of a line. -/
theorem iniTree_oneLine (text : Bytes) (tree : Tree) (h : iniTree text = some tree) (name key value : Bytes)
    (node : Node) (hnode : (name, node) ∈ tree) (hget : node.get key = some value) : lf ∉ value := by
  obtain ⟨fin, hrun, rfl⟩ := Option.map_eq_some_iff.mp h
  have hfin : fin.OneLine := exec_invariant Ini.line (fun line => lf ∉ line) Ini.OneLine
    (fun ini line ini' hini hline hstep => hini.line ini ini' line hline hstep) {} fin (scanLines text)
    (fun p hp => absurd hp List.not_mem_nil) (lf_notMem_of_mem_scanLines text) hrun
  obtain ⟨front, back, hkeys, -⟩ :=
    List.lookup_eq_some_iff.mp (show node.keys.lookup key = some value from hget)
  refine hfin _ (mem_of_mem_flush fin _ hnode) (key, value) ?_
  rw [show (name, node).2.keys = front ++ (key, value) :: back from hkeys]
  simp

/-! ## Accepted trees -/

/-- The nodes that `loadConfig` takes for outputs. -/
def isOutput (p : Bytes × Node) : Bool :=
  decide (outputPrefix.length < p.1.length ∧ p.1.take outputPrefix.length = outputPrefix)

/-- A check that is skipped under `c`. -/
theorem skipped_ok {α β : Type} (c : Prop) [Decidable c] (y x : Fallible α) (f : α → Fallible β) (b : β)
    (h : (if c then y >>= f else x >>= f) = .ok b) : ∃ a, f a = .ok b ∧ (¬c → x = .ok a) := by
  split at h
  · next hc =>
    obtain ⟨a, -, ha⟩ := bind_eq_ok _ _ _ h
    exact ⟨a, ha, fun hnot => absurd hc hnot⟩
  · obtain ⟨a, hx, ha⟩ := bind_eq_ok _ _ _ h
    exact ⟨a, ha, fun _ => hx⟩

theorem parseOutput_ok (name : Bytes) (sec : Node) (out : OutputConfig) (h : parseOutput name sec = .ok out) :
    out.name = name ∧ out.jsonlFile = (sec.get (ascii "jsonl_file")).getD [] ∧
      (out.jsonlFile ≠ [] → isAbsolute out.jsonlFile = true) ∧
      ∃ maxFiles : ℤ, requireInt (sec.get (ascii "max_files")) (ascii "[output." ++ name ++ ascii "] " ++
        ascii "max_files") 10 =
          .ok maxFiles ∧ 0 ≤ maxFiles ∧ maxFiles ≤ kMaxFilesLimit ∧ out.maxFiles = maxFiles.toNat := by
  unfold parseOutput at h
  obtain ⟨_, -, h⟩ := bind_eq_ok _ _ _ h
  obtain ⟨_, -, h⟩ := bind_eq_ok _ _ _ h
  obtain ⟨_, h, -⟩ := skipped_ok _ (pure ()) _ _ _ h
  obtain ⟨_, h, hpath⟩ := skipped_ok _ (pure ()) _ _ _ h
  obtain ⟨_, -, h⟩ := bind_eq_ok _ _ _ h
  obtain ⟨_, h, -⟩ := skipped_ok _ (pure 0) _ _ _ h
  obtain ⟨maxFiles, hmax, h⟩ := bind_eq_ok _ _ _ h
  obtain ⟨_, hrange, h⟩ := bind_eq_ok _ _ _ h
  obtain ⟨_, -, h⟩ := bind_eq_ok _ _ _ h
  obtain ⟨_, -, h⟩ := bind_eq_ok _ _ _ h
  obtain ⟨_, -, h⟩ := bind_eq_ok _ _ _ h
  cases h
  refine ⟨rfl, rfl, fun hne => ?_, maxFiles, hmax, ?_⟩
  · have hok := hpath hne
    unfold requireAbsolutePath at hok
    split at hok
    · next habs => exact habs
    · cases hok
  unfold refuse at hrange
  split at hrange
  · cases hrange
  · next hbad =>
    rw [not_or, not_lt, not_lt] at hbad
    exact ⟨hbad.1, hbad.2, rfl⟩

theorem parseOutputs_ok (tree : Tree) (seen : List Bytes) (outputs : List OutputConfig)
    (h : parseOutputs seen tree = .ok outputs) :
    List.Forall₂ (fun p out => parseOutput (p.1.drop outputPrefix.length) p.2 = .ok out)
    (tree.filter isOutput) outputs := by
  induction tree generalizing seen outputs with
  | nil =>
    cases h
    exact .nil
  | cons p tree ih =>
    unfold parseOutputs at h
    by_cases hp : outputPrefix.length < p.1.length ∧ p.1.take outputPrefix.length = outputPrefix
    · rw [if_pos hp] at h
      obtain ⟨_, -, h⟩ := bind_eq_ok _ _ _ h
      obtain ⟨out, hout, h⟩ := bind_eq_ok _ _ _ h
      obtain ⟨rest, hrest, h⟩ := bind_eq_ok _ _ _ h
      cases h
      rw [List.filter_cons_of_pos (show isOutput p = true from decide_eq_true hp)]
      exact .cons hout (ih _ _ hrest)
    · rw [if_neg hp] at h
      rw [List.filter_cons_of_neg (show ¬isOutput p =
        true from by simp only [isOutput, decide_eq_true_eq]; exact hp)]
      exact ih _ _ h

theorem forall₂_left {α β : Type} {R : α → β → Prop} {l : List α} {l' : List β} (h : List.Forall₂ R l l') :
    ∀ a ∈ l, ∃ b ∈ l', R a b := by
  induction h with
  | nil =>
    intro a ha
    cases ha
  | @cons a b l l' hab _ ih =>
    intro c hc
    rcases List.mem_cons.mp hc with rfl | hc
    · exact ⟨b, List.mem_cons_self, hab⟩
    · obtain ⟨d, hd, hcd⟩ := ih c hc
      exact ⟨d, List.mem_cons_of_mem b hd, hcd⟩

theorem loadConfig_outputs (makeAddress : Bytes → Option Address) (tree : Tree) (cfg : Config)
    (h : loadConfig makeAddress tree = .ok cfg) : parseOutputs [] tree = .ok cfg.outputs := by
  unfold loadConfig at h
  obtain ⟨server, -, h⟩ := bind_eq_ok _ _ _ h
  obtain ⟨outputs, houtputs, h⟩ := bind_eq_ok _ _ _ h
  obtain ⟨_, -, h⟩ := bind_eq_ok _ _ _ h
  obtain ⟨_, -, h⟩ := bind_eq_ok _ _ _ h
  obtain ⟨_, -, h⟩ := bind_eq_ok _ _ _ h
  obtain ⟨forwarding, -, h⟩ := bind_eq_ok _ _ _ h
  obtain ⟨_, -, h⟩ := bind_eq_ok _ _ _ h
  cases h
  exact houtputs

/-- `make_address`, on the host of a configuration that names none. -/
def plainAddress (value : Bytes) : Option Address := if value = ascii "0.0.0.0" then some .v4 else none

end Minilog.Server
