import Mathlib.Data.List.GetD
import Minilog.Output.Locality

/-! The sinks of a server, which share one file system (`OutputManager`).

Each section has a sink with a strand of its own, so the handlers of different sinks run in any order. If the
files of the sections are `Separate`, no sink notices the others: what it does and what becomes of its files
is the run of its own events on its own files, whatever faults the others meet (`sinks_isolated`). -/
namespace Minilog.Server
open Lib
open Minilog.Parser Minilog.Output
set_option autoImplicit false

/-! ## Separate files -/

/-- All files are written in normal form, in which a path stands for one file and a file has one path, and no
two of them share a name, generations included. -/
structure Config.Separate (cfg : Config) : Prop where
  normalised : ∀ f ∈ cfg.files, Normalised f.path
  disjoint : cfg.files.Pairwise fun p q => Disjoint p.family q.family

/-- The configurations that `loadConfig` accepts are separate when their files are in normal form and none is
named like a generation of another one. -/
theorem loadConfig_separate (makeAddress : Bytes → Option Address) (tree : Tree) (cfg : Config)
    (h : loadConfig makeAddress tree = .ok cfg) (hnormal : ∀ f ∈ cfg.files, Normalised f.path)
    (hnames : ∀ f ∈ cfg.files, ∀ g ∈ cfg.files, ¬ f.HasGenerationName g.path) : cfg.Separate := by
  have hdistinct := loadConfig_distinct makeAddress tree cfg h
  unfold List.Nodup at hdistinct
  rw [List.pairwise_map] at hdistinct
  refine ⟨hnormal, hdistinct.imp_of_mem fun hp hq hne => ?_⟩
  exact (family_disjoint_iff _ _ hne (hnormal _ hp) (hnormal _ hq)).mpr ⟨hnames _ hp _ hq, hnames _ hq _ hp⟩

theorem mem_files (out : OutputConfig) (c : Chain) (hc : c.Configured out) :
    (⟨c.file out, out.maxFiles⟩ : OwnedFile) ∈ out.files := by
  unfold OutputConfig.files
  refine List.mem_map.mpr ⟨c.file out, List.mem_filter.mpr ⟨?_, ?_⟩, rfl⟩
  · cases c with
    | text => exact List.mem_cons_self
    | jsonl => exact List.mem_cons_of_mem _ List.mem_cons_self
  · unfold Chain.Configured at hc
    cases h : c.file out with
    | nil => exact absurd h hc
    | cons b bs => rfl

theorem owns_iff (out : OutputConfig) (p : Bytes) :
    Owns out p ↔ ∃ c, Chain.Configured out c ∧ p ∈ OwnedFile.family ⟨c.file out, out.maxFiles⟩ := by
  constructor
  · rintro ⟨c, n, hc, hn, rfl⟩
    exact ⟨c, hc, n, hn, rfl⟩
  · rintro ⟨c, hc, n, hn, rfl⟩
    exact ⟨c, n, hc, hn, rfl⟩

section Separate

variable {cfg : Config} (h : cfg.Separate)

include h in
theorem Config.Separate.apart (out : OutputConfig) (hout : out ∈ cfg.outputs) : Apart out := by
  intro ht hj
  have hpair := (List.pairwise_flatMap.mp h.disjoint).1 out hout
  have hfiles : out.files = [⟨out.textFile, out.maxFiles⟩, ⟨out.jsonlFile, out.maxFiles⟩] := by
    unfold OutputConfig.files
    simp [ht, hj]
  rw [hfiles] at hpair
  exact (List.pairwise_cons.mp hpair).1 _ List.mem_cons_self

include h in
/-- Two sections own no file together. -/
theorem Config.Separate.unowned (i j : ℕ) (out out' : OutputConfig) (hij : i ≠ j)
    (hi : cfg.outputs[i]? = some out) (hj : cfg.outputs[j]? = some out') (p : Bytes) (hp : Owns out p) :
    ¬ Owns out' p := by
  intro hp'
  obtain ⟨c, hc, hpc⟩ := (owns_iff out p).mp hp
  obtain ⟨d, hd, hpd⟩ := (owns_iff out' p).mp hp'
  have hpair := (List.pairwise_flatMap.mp h.disjoint).2
  rw [List.pairwise_iff_getElem] at hpair
  obtain ⟨hilt, rfl⟩ := List.getElem?_eq_some_iff.mp hi
  obtain ⟨hjlt, rfl⟩ := List.getElem?_eq_some_iff.mp hj
  rcases Nat.lt_or_gt_of_ne hij with hlt | hlt
  · exact Set.disjoint_left.mp (hpair i j hilt hjlt hlt _ (mem_files _ c hc) _ (mem_files _ d hd)) hpc hpd
  · exact Set.disjoint_left.mp (hpair j i hjlt hilt hlt _ (mem_files _ d hd) _ (mem_files _ c hc)) hpd hpc

end Separate

/-! ## One process, one disk -/

/-- A sink, and the record of what it did, apart from the files. -/
structure Site where
  sink : LogFile := {}
  osLog : List Bytes := []
  trace : List Deed := []

structure Sinks where
  disk : Disk
  running : Bool := true
  site : ℕ → Site := fun _ => {}

/-- The world as the sink of section `i` has it. -/
def Sinks.world (s : Sinks) (i : ℕ) : World :=
  ⟨s.disk, (s.site i).sink, s.running, (s.site i).osLog, (s.site i).trace⟩

def Sinks.put (s : Sinks) (i : ℕ) (w : World) : Sinks :=
  ⟨w.disk, w.running, Function.update s.site i ⟨w.sink, w.osLog, w.trace⟩⟩

section Steps

variable (retryInterval : ℕ) (serialize : List (Bytes × Option Bytes) → Bytes) (cfg : Config)

/-- An event of the sink of section `i`. -/
def Sinks.step (s : Sinks) : ℕ × Event → Sinks
  | (i, e) =>
    match cfg.outputs[i]? with
    | none => s
    | some out => s.put i (Output.step out retryInterval serialize (s.world i) e)

def Sinks.run (s : Sinks) (events : List (ℕ × Event)) : Sinks :=
  events.foldl (Sinks.step retryInterval serialize cfg) s

/-- The events of section `i`, in order. -/
def eventsOf (i : ℕ) (events : List (ℕ × Event)) : List Event := (events.filter fun e => e.1 = i).map Prod.snd

/-- The process runs, and no sink has opened a stream that is not configured. -/
structure Sinks.Fits (s : Sinks) : Prop where
  running : s.running = true
  streams : ∀ i out, cfg.outputs[i]? = some out → ∀ c, (s.site i).sink.isOpen c = true → Chain.Configured out c

/-- What a section sees of the server. -/
noncomputable def Sinks.own (i : ℕ) (s : Sinks) : Option World :=
  (cfg.outputs[i]?).map fun out => (s.world i).inside out

variable {cfg} (hseparate : cfg.Separate)

theorem Sinks.put_world (s : Sinks) (i : ℕ) (w : World) : (s.put i w).world i = w := by
  unfold Sinks.world Sinks.put
  dsimp only
  rw [Function.update_self]

include hseparate in
/-- One step, for its own section and for all others. -/
theorem Sinks.step_isolated (s : Sinks) (hs : s.Fits cfg) (i : ℕ) (out : OutputConfig)
    (hi : cfg.outputs[i]? = some out) (e : Event) (he : e.Lives) :
    let t := Sinks.step retryInterval serialize cfg s (i, e)
    t.Fits cfg ∧ (t.world i).inside out = Output.step out retryInterval serialize ((s.world i).inside out) e ∧
      (∀ j out', j ≠ i → cfg.outputs[j]? = some out' → (t.world j).inside out' = (s.world j).inside out') ∧
      ∀ p, ¬ Owns out p → t.disk p = s.disk p := by
  intro t
  have hout := List.mem_of_getElem? hi
  obtain ⟨hsame, houtside, hrunning, hopen⟩ :=
    step_local out retryInterval serialize (hseparate.apart out hout) e he (s.world i) hs.running
    (hs.streams i out hi)
  have ht : t = s.put i (Output.step out retryInterval serialize (s.world i) e) := by
    change (match cfg.outputs[i]? with | none => s | some out => _) = _
    rw [hi]
  have hdisk : ∀ p, ¬ Owns out p → t.disk p = s.disk p := by
    intro p hp
    rw [ht]
    have hat := congrFun houtside p
    unfold Output.outside at hat
    rw [if_neg hp, if_neg hp] at hat
    exact hat
  refine ⟨⟨?_, ?_⟩, ?_, ?_, hdisk⟩
  · rw [ht]
    exact hrunning
  · intro j out' hj c hc
    by_cases hji : j = i
    · rw [hji, hi] at hj
      cases hj
      rw [ht, hji] at hc
      unfold Sinks.put at hc
      dsimp only at hc
      rw [Function.update_self] at hc
      exact hopen c hc
    · rw [ht] at hc
      unfold Sinks.put at hc
      dsimp only at hc
      rw [Function.update_of_ne hji] at hc
      exact hs.streams j out' hj c hc
  · rw [ht, Sinks.put_world]
    exact hsame.symm
  · intro j out' hji hj
    have hsite : t.site j = s.site j := by
      rw [ht]
      exact Function.update_of_ne hji _ _
    have hfiles : inside out' t.disk = inside out' s.disk := by
      refine inside_congr out' _ _ fun p hp => hdisk p fun hpi => ?_
      exact hseparate.unowned i j out out' (Ne.symm hji) hi hj p hpi hp
    have hrunning' : t.running = s.running := by
      rw [hs.running, ht]
      exact hrunning
    unfold Sinks.world World.inside
    dsimp only
    rw [hsite, hfiles, hrunning']

/-- Events of a section that there is not. -/
theorem Sinks.step_none (s : Sinks) (i : ℕ) (hi : cfg.outputs[i]? = none) (e : Event) :
    Sinks.step retryInterval serialize cfg s (i, e) = s := by
  change (match cfg.outputs[i]? with | none => s | some out => _) = s
  rw [hi]

theorem foldl_map_some {α E : Type} (f : α → E → α) (a : α) (es : List E) :
    es.foldl (fun w e => w.map fun a => f a e) (some a) = some (es.foldl f a) := by
  induction es generalizing a with
  | nil => rfl
  | cons e es ih => exact ih (f a e)

include hseparate in
theorem Sinks.run_own (s : Sinks) (hs : s.Fits cfg) (events : List (ℕ × Event))
    (hlives : ∀ e ∈ events, e.2.Lives) (i : ℕ) (out : OutputConfig) (hi : cfg.outputs[i]? = some out) :
    ((Sinks.run retryInterval serialize cfg s events).world i).inside out =
      Output.run out retryInterval serialize ((s.world i).inside out) (eventsOf i events) := by
  -- the section and all others, as one step of the interleaving
  have hrun := interleave_own (fun j s => Sinks.own cfg j s) (Sinks.step retryInterval serialize cfg)
    (fun j w e => w.map fun w => Output.step ((cfg.outputs[j]?).getD {}) retryInterval serialize w e)
    (fun s => s.Fits cfg) (fun e => e.2.Lives) ?_ ?_ ?_ events hlives s hs i
  · unfold Sinks.own at hrun
    rw [hi, Option.map_some, Option.map_some, Option.getD_some, foldl_map_some] at hrun
    exact Option.some.inj hrun
  · rintro t ⟨j, e⟩ ht he
    cases hj : cfg.outputs[j]? with
    | none =>
      rw [Sinks.step_none retryInterval serialize t j hj e]
      exact ht
    | some out' => exact (Sinks.step_isolated retryInterval serialize hseparate t ht j out' hj e he).1
  · intro t j e ht he
    unfold Sinks.own
    cases hj : cfg.outputs[j]? with
    | none => rfl
    | some out' =>
      exact congrArg some (Sinks.step_isolated retryInterval serialize hseparate t ht j out' hj e he).2.1
  · intro t j k e ht he hkj
    cases hj : cfg.outputs[j]? with
    | none => rw [Sinks.step_none retryInterval serialize t j hj e]
    | some out' =>
      unfold Sinks.own
      cases hk : cfg.outputs[k]? with
      | none => rfl
      | some out'' =>
        exact congrArg some ((Sinks.step_isolated retryInterval serialize hseparate t ht j out' hj e
          he).2.2.1 k out'' hkj hk)

include hseparate in
theorem Sinks.run_kept (s : Sinks) (hs : s.Fits cfg) (events : List (ℕ × Event))
    (hlives : ∀ e ∈ events, e.2.Lives) :
    (Sinks.run retryInterval serialize cfg s events).Fits cfg ∧
      ∀ p, (∀ out ∈ cfg.outputs, ¬ Owns out p) → (Sinks.run retryInterval serialize cfg s events).disk p =
        s.disk p := by
  induction events generalizing s with
  | nil => exact ⟨hs, fun _ _ => rfl⟩
  | cons e events ih =>
    obtain ⟨i, e⟩ := e
    have hrest := fun e' he' => hlives e' (List.mem_cons_of_mem _ he')
    change (Sinks.run retryInterval serialize cfg (Sinks.step retryInterval serialize cfg s (i,
      e)) events).Fits cfg ∧ ∀ p, _ →
      (Sinks.run retryInterval serialize cfg (Sinks.step retryInterval serialize cfg s (i, e)) events).disk
      p = s.disk p
    cases hi : cfg.outputs[i]? with
    | none =>
      rw [Sinks.step_none retryInterval serialize s i hi e]
      exact ih s hs hrest
    | some out =>
      obtain ⟨hfits, -, -, hdisk⟩ := Sinks.step_isolated retryInterval serialize hseparate s hs i out hi e
        (hlives _ List.mem_cons_self)
      obtain ⟨hfits', hdisk'⟩ := ih _ hfits hrest
      exact ⟨hfits', fun p hp => (hdisk' p hp).trans (hdisk p (hp out (List.mem_of_getElem? hi)))⟩

/-- In whatever order the strands run: each sink has the state, and its files the contents, that its own
events alone lead to, and every file that belongs to no section is as it was. -/
theorem sinks_isolated (hseparate : cfg.Separate) (s : Sinks) (hs : s.Fits cfg) (events : List (ℕ × Event))
    (hlives : ∀ e ∈ events, e.2.Lives) :
    (∀ i out, cfg.outputs[i]? = some out →
      ((Sinks.run retryInterval serialize cfg s events).world i).inside out =
        Output.run out retryInterval serialize ((s.world i).inside out) (eventsOf i events)) ∧
    ∀ p, (∀ out ∈ cfg.outputs, ¬ Owns out p) →
      (Sinks.run retryInterval serialize cfg s events).disk p = s.disk p :=
  ⟨fun i out hi => Sinks.run_own retryInterval serialize hseparate s hs events hlives i out hi,
    (Sinks.run_kept retryInterval serialize hseparate s hs events hlives).2⟩

end Steps

/-- A section for mail and one for everything. -/
def twoSections : Config where
  outputs := [{ name := ascii "mail", textFile := ascii "/d/mail.log", maxFiles := 1, facilities := [2] },
    { name := ascii "all", textFile := ascii "/d/all.log", jsonlFile := ascii "/d/all.jsonl", maxFiles := 1 }]

theorem separate_twoSections : twoSections.Separate := by
  -- with one generation each there is one name to compare
  have hname : ∀ f g : OwnedFile, f.maxFiles = 1 → filename g.path ≠ generationName f.path 1 →
      ¬ f.HasGenerationName g.path := by
    rintro f g hf hne ⟨-, n, hn, hle, heq⟩
    rw [generationLimit, hf] at hle
    obtain rfl : n = 1 := by
      change n ≤ 1 at hle
      omega
    exact hne heq
  have hall : ∀ f ∈ twoSections.files, f.maxFiles = 1 ∧ Normalised f.path ∧
      ∀ g ∈ twoSections.files, filename g.path ≠ generationName f.path 1 := by decide +kernel
  refine ⟨fun f hf => (hall f hf).2.1, ?_⟩
  refine List.Pairwise.imp_of_mem (R := fun p q => p.path ≠ q.path) (fun {p q} hp hq hne => ?_)
    (by decide +kernel)
  obtain ⟨hpmax, hpn, hpname⟩ := hall p hp
  obtain ⟨hqmax, hqn, hqname⟩ := hall q hq
  exact (family_disjoint_iff p q hne hpn hqn).mpr ⟨hname p q hpmax (hpname q hq), hname q p hqmax (hqname p hp)⟩

/-- The disk is full when the mail is written; the other section goes on. -/
def mailFails : List (ℕ × Event) :=
  [(0, .start true .fine), (1, .start true .fine),
    (0, .write { raw := ascii "m" } [] (.fault (.write .text) 0)), (1, sample "m"), (1, sample "u")]

theorem sinks_isolated_full :
    let s := Sinks.run SinkRecovery.kRetryInterval jsonText twoSections { disk := fun _ => none } mailFails
    (s.site 0).sink.closed = true ∧ s.disk (ascii "/d/all.log") = some (ascii "m\nu\n") ∧
      ∀ out, twoSections.outputs[1]? = some out →
      (s.world 1).inside out = Output.run out SinkRecovery.kRetryInterval jsonText
        ((Sinks.world { disk := fun _ => none } 1).inside out) [.start true .fine, sample "m", sample "u"] := by
  have hlives : ∀ e ∈ mailFails, e.2.Lives := by
    intro e he
    simp only [mailFails, List.mem_cons, List.not_mem_nil, or_false] at he
    obtain rfl | rfl | rfl | rfl | rfl := he
    · exact fun _ => rfl
    · exact fun _ => rfl
    · intro call
      unfold Plan.fault
      dsimp only
      split_ifs
      · simp
      · simp
    · exact fun _ h => by cases h
    · exact fun _ h => by cases h
  refine ⟨by decide +kernel, by decide +kernel, fun out hout => ?_⟩
  exact (sinks_isolated SinkRecovery.kRetryInterval jsonText separate_twoSections { disk := fun _ => none }
    ⟨rfl, fun _ _ _ _ h => by cases h⟩ mailFails hlives).1 1 out hout

end Minilog.Server
