import Minilog.Output.KeepAll
import Minilog.Viewer.Chain
import Minilog.Viewer.Naming

/-! How deep a chain without `max_files` gets, and how deep the viewer looks.

The server numbers the generations of such a chain up to 1001; the viewer reads `max_files = 0` as 1000. -/
namespace Minilog.Viewer
open Lib Minilog.Server
open Minilog.Output (Chain World Event Deed Stacked depth run blank rotations Apart Separated keepAll
  keepAllWorld)
set_option autoImplicit false

/-- What `max_files = 0` means to the viewer. -/
def maxFilesLimit : ℕ := 1000

/-- The sink as the viewer reads it from the configuration of a sink that keeps all generations. -/
def keepAllSink (cfg : OutputConfig) : Sink := ⟨cfg.name, cfg.jsonlFile, maxFilesLimit⟩

/-- The files of the jsonl chain as the viewer reaches them: a file is the same under all its names. -/
structure SeesFiles (cfg : OutputConfig) (view : Directory) (w : World) : Prop where
  names : ∀ p q, SameFile p q → view p = view q
  files : ∀ n, n ≤ depth cfg → view (Chain.path cfg .jsonl n) = w.disk (Chain.path cfg .jsonl n)

/-- The names of a sink's files are as many files: what is kept under one is not what is kept under another. -/
theorem separated_files (cfg : OutputConfig) (h : Separated cfg)
    (hnames : ∀ c, Chain.Configured cfg c → Output.filename (c.file cfg) ≠ []) (c d : Chain)
    (hc : c.Configured cfg) (hd : d.Configured cfg) (n m : ℕ) (hn : n ≤ depth cfg) (hm : m ≤ depth cfg)
    (hsame : SameFile (c.path cfg n) (d.path cfg m)) : c = d ∧ n = m := by
  have hpath := (rooted_slotPath _ (h.normalised c hc) (hnames c hc) n).unique
    (rooted_slotPath _ (h.normalised d hd) (hnames d hd) m) hsame
  exact Output.path_injective cfg h.apart c d hc hd n m hn hm hpath

/-- The files of a sink stay inside the depth both programs agree on. -/
structure WithinDepth (cfg : OutputConfig) (w : World) : Prop where
  numbered : ∀ p, w.disk p ≠ none → ∃ c n, Chain.Configured cfg c ∧ n ≤ maxFilesLimit ∧ p = c.path cfg n
  kept : ∀ c content, Deed.replaced c content ∉ w.trace
  probed : Chain.Configured cfg .jsonl → ∀ n, n ≤ depth cfg → w.disk (Chain.path cfg .jsonl n) ≠ none →
    ∃ p ∈ candidates (keepAllSink cfg), SameFile (Chain.path cfg .jsonl n) p
  visible : Chain.Configured cfg .jsonl → ∀ view, SeesFiles cfg view w → ∀ n, n ≤ depth cfg → ∀ content,
    w.disk (Chain.path cfg .jsonl n) = some content → ∀ line ∈ scanLines content,
      ∃ o, (o, line) ∈ chainLines view (keepAllSink cfg)

/-! ## Lines -/

/-- The lines of a text are found wherever it stands. -/
theorem scanLines_splitLines (s : Bytes) (o : ℕ) : ∀ line ∈ scanLines s, ∃ o', (o', line) ∈ splitLines o s := by
  induction hn : s.length using Nat.strong_induction_on generalizing s o with
  | _ n ih =>
    intro line hline
    rcases lines_cases s with rfl | ⟨hne, hlf⟩ | ⟨l, t, hlf, rfl⟩
    · cases hline
    · rw [scanLines_unterminated s hne hlf, List.mem_singleton] at hline
      rw [hline, splitLines_unterminated o s hlf]
      exact ⟨o, List.mem_singleton_self _⟩
    · rw [scanLines_terminated l t hlf, List.mem_cons] at hline
      rw [splitLines_terminated o l t hlf]
      rcases hline with rfl | hline
      · exact ⟨o, List.mem_cons_self⟩
      · have hlt : t.length < n := by
          rw [← hn, List.length_append, List.length_cons]
          omega
        obtain ⟨o', ho'⟩ := ih t.length hlt t (o + (l.length + 1)) rfl line hline
        exact ⟨o', List.mem_cons_of_mem _ ho'⟩

theorem mem_linesOf (cs : List Bytes) (c : Bytes) (hc : c ∈ cs) (o : ℕ) :
    ∃ o', ∀ p ∈ splitLines o' c, p ∈ linesOf o cs := by
  induction cs generalizing o with
  | nil => cases hc
  | cons d cs ih =>
    rcases List.mem_cons.mp hc with rfl | hc
    · exact ⟨o, fun p hp => List.mem_append_left _ hp⟩
    · obtain ⟨o', ho'⟩ := ih hc (o + d.length)
      exact ⟨o', fun p hp => List.mem_append_right _ (ho' p hp)⟩

/-- A file that is probed is read. -/
theorem visible_of_probed (view : Directory) (sink : Sink) (path content : Bytes)
    (hnames : ∀ p q, SameFile p q → view p = view q) (hprobed : ∃ p ∈ candidates sink, SameFile path p)
    (hcontent : view path = some content) (line : Bytes) (hline : line ∈ scanLines content) :
    ∃ o, (o, line) ∈ chainLines view sink := by
  obtain ⟨p, hp, hsame⟩ := hprobed
  have hview : view p = some content := by rw [← hnames path p hsame, hcontent]
  have hne : content ≠ [] := by
    rintro rfl
    cases hline
  have htext : content ∈ chainTexts view sink := by
    rw [chainTexts, List.mem_filter, List.mem_filterMap]
    exact ⟨⟨p, hp, hview⟩, by simpa using hne⟩
  obtain ⟨o', ho'⟩ := mem_linesOf _ content htext 0
  obtain ⟨o, ho⟩ := scanLines_splitLines content o' line hline
  exact ⟨o, ho' _ ho⟩

/-! ## The depth -/

variable {cfg : OutputConfig}

theorem stacked_files (k : ℕ) (w : World) (hs : Stacked cfg k (w.archive cfg)) (c : Chain)
    (hc : Chain.Configured cfg c) (n : ℕ) (hn : 1 ≤ n) (hle : n ≤ depth cfg) :
    w.disk (c.path cfg n) ≠ none ↔ n ≤ k := by
  have hslot : (w.archive cfg).slots c n = w.disk (c.path cfg n) := Output.slots_apply cfg w.disk c n hc hle
  rw [← hslot]
  exact hs.generations c hc n hn hle

theorem path_jsonl (n : ℕ) (hn : 1 ≤ n) :
    Chain.path cfg .jsonl n = Output.rotatedPath (keepAllSink cfg).path n :=
  if_neg (by omega)

/-- One generation too many. -/
theorem beyond_depth (hzero : cfg.maxFiles = 0) (k : ℕ) (w : World) (hs : Stacked cfg k (w.archive cfg))
    (hk : maxFilesLimit < k) (hj : Chain.Configured cfg .jsonl) :
    w.disk (Chain.path cfg .jsonl (maxFilesLimit + 1)) ≠ none ∧
      ¬ ∃ p ∈ candidates (keepAllSink cfg), SameFile (Chain.path cfg .jsonl (maxFilesLimit + 1)) p := by
  have hdepth : depth cfg = maxFilesLimit + 1 := if_pos hzero
  refine ⟨(stacked_files k w hs .jsonl hj _ (by omega) (by omega)).mpr hk, ?_⟩
  rw [path_jsonl _ (by omega), probed_iff (keepAllSink cfg) _ (by omega)]
  rintro ⟨hle, -⟩
  change maxFilesLimit + 1 ≤ maxFilesLimit at hle
  omega

/-- One generation more, and one is replaced. -/
theorem replaced_beyond (k : ℕ) (w : World) (hs : Stacked cfg k (w.archive cfg)) (hk : depth cfg < k) :
    ∃ c content, Deed.replaced c content ∈ w.trace := hs.replaced.mpr hk

/-- After `k` rotations the two programs agree, unless there were more than 1000, or they name a generation
differently. -/
theorem withinDepth_iff (hapart : Apart cfg) (hzero : cfg.maxFiles = 0) (k : ℕ) (w : World)
    (hs : Stacked cfg k (w.archive cfg)) :
    WithinDepth cfg w ↔
      k ≤ maxFilesLimit ∧ (Chain.Configured cfg .jsonl → ∀ n, 1 ≤ n → n ≤ k → NamedAlike cfg.jsonlFile n) := by
  have hdepth : depth cfg = maxFilesLimit + 1 := if_pos hzero
  have hgen := stacked_files k w hs
  constructor
  · intro h
    have hk : k ≤ maxFilesLimit := by
      by_contra hlt
      obtain ⟨c, hc⟩ := hs.configured (by omega)
      have hlast := (hgen c hc (maxFilesLimit + 1) (by omega) (by omega)).mpr (by omega)
      obtain ⟨d, n, hd, hn, heq⟩ := h.numbered _ hlast
      have hsame := (Output.path_injective cfg hapart c d hc hd _ n (by omega) (by omega) heq).2
      omega
    refine ⟨hk, fun hj n hn hnk => ?_⟩
    have hfile := (hgen .jsonl hj n hn (by omega)).mpr hnk
    have hprobed := h.probed hj n (by omega) hfile
    rw [path_jsonl n hn] at hprobed
    exact ((probed_iff (keepAllSink cfg) n hn).mp hprobed).2
  · rintro ⟨hk, halike⟩
    have hprobed : Chain.Configured cfg .jsonl → ∀ n, n ≤ depth cfg → w.disk (Chain.path cfg .jsonl n) ≠ none →
        ∃ p ∈ candidates (keepAllSink cfg), SameFile (Chain.path cfg .jsonl n) p := by
      intro hj n hn hfile
      by_cases h0 : n = 0
      · rw [h0]
        refine ⟨cfg.jsonlFile, ?_, rfl⟩
        rw [candidates, List.mem_append]
        exact .inr (List.mem_singleton_self _)
      · have hnk := (hgen .jsonl hj n (by omega) hn).mp hfile
        rw [path_jsonl n (by omega)]
        exact (probed_iff (keepAllSink cfg) n (by omega)).mpr ⟨le_trans hnk hk, halike hj n (by omega) hnk⟩
    refine ⟨?_, ?_, hprobed, ?_⟩
    · intro p hp
      by_cases howned : Output.Owns cfg p
      · obtain ⟨c, n, hc, hn, rfl⟩ := howned
        by_cases h0 : n = 0
        · exact ⟨c, 0, hc, by omega, by rw [h0]⟩
        · exact ⟨c, n, hc, le_trans ((hgen c hc n (by omega) hn).mp hp) hk, rfl⟩
      · have hout := congrFun hs.outside p
        change Output.outside cfg w.disk p = none at hout
        unfold Output.outside at hout
        rw [if_neg howned] at hout
        exact absurd hout hp
    · intro c content hmem
      have hlt := hs.replaced.mp ⟨c, content, hmem⟩
      omega
    · intro hj view hsees n hn content hcontent line hline
      have hfile : w.disk (Chain.path cfg .jsonl n) ≠ none := by
        rw [hcontent]
        exact Option.some_ne_none content
      exact visible_of_probed view _ _ content hsees.names (hprobed hj n hn hfile)
        ((hsees.files n hn).trans hcontent) line hline

/-- **A sink that keeps all generations stays inside the depth both programs agree on** for a thousand
rotations, and no further. -/
theorem keepAll_withinDepth (hfiles : Separated cfg) (hzero : cfg.maxFiles = 0) (retryInterval : ℕ)
    (serialize : List (Bytes × Option Bytes) → Bytes) (events : List Event) (hfine : ∀ e ∈ events, e.Fine) :
    WithinDepth cfg (run cfg retryInterval serialize blank events) ↔
      rotations cfg retryInterval serialize blank events ≤ maxFilesLimit ∧
        (Chain.Configured cfg .jsonl → ∀ n, 1 ≤ n → n ≤ rotations cfg retryInterval serialize blank events →
          NamedAlike cfg.jsonlFile n) :=
  withinDepth_iff hfiles.apart hzero _ _
    (Output.run_stacked retryInterval serialize hfiles.apart hzero events hfine)

theorem keepAll_withinDepth_thousand : WithinDepth keepAll (keepAllWorld 1000) := by
  have hiff := keepAll_withinDepth Output.separated_keepAll rfl Output.SinkRecovery.kRetryInterval
    Output.jsonText (Output.keepAllEvents 1000) (Output.keepAllEvents_fine 1000)
  rw [Output.rotations_keepAll] at hiff
  refine hiff.mpr ⟨le_refl _, fun _ n _ _ => ⟨by decide, ?_⟩⟩
  intro x hx
  have hname : Output.filename keepAll.jsonlFile = ascii "a.jsonl" := by decide
  rw [hname] at hx
  cases hx

/-- The rotation after the thousandth makes a generation the viewer does not look for; the one after that
replaces it. -/
theorem keepAll_beyond_depth :
    (keepAllWorld 1001).disk (ascii "/d/a.1001.jsonl") ≠ none ∧
      (¬ ∃ p ∈ candidates (keepAllSink keepAll), SameFile (ascii "/d/a.1001.jsonl") p) ∧
      ∃ c content, Deed.replaced c content ∈ (keepAllWorld 1002).trace := by
  have hpath : Chain.path keepAll .jsonl (maxFilesLimit + 1) = ascii "/d/a.1001.jsonl" := by decide +kernel
  have hlast := beyond_depth rfl 1001 _ (Output.keepAllWorld_stacked 1001) (Nat.lt_succ_self 1000) (by decide)
  rw [hpath] at hlast
  exact ⟨hlast.1, hlast.2, replaced_beyond 1002 _ (Output.keepAllWorld_stacked 1002) (by decide)⟩

end Minilog.Viewer
