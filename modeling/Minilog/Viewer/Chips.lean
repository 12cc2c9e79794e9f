import Minilog.Lib.Form
import Minilog.Viewer.FieldScan

/-! The severity and facility chips, from the browser's state to the record.

`filterParams` is the function of `assets/app.js`, `parseFilter` that of `handlers.go`; between them stands
the text of the query. `admits` is the whole pipeline. The chips of the browser and the names in the records
are two tables: `chips_agree` says when the pipeline does what the chips say. -/
namespace Minilog.Viewer
open Lib
open Minilog.Output Minilog.Parser
set_option autoImplicit false

abbrev comma : UInt8 := 0x2C

/-- `SEV_NAMES`; the index is the code in `SEV_CODES`. -/
def sevNames : List Bytes := ["EMERG", "ALERT", "CRIT", "ERR", "WARN", "NOTICE", "INFO", "DEBUG"].map ascii

/-- The filter state of the browser; a `Set` is the list of its elements. -/
structure FilterState where
  activeSink : Bytes
  hiddenSeverities : List Bytes
  activeFacilities : List Bytes
  includePatterns : List Bytes
  excludePatterns : List Bytes
  clearOffset : Option ℕ
deriving DecidableEq

def allowedSev (ui : FilterState) : List Bytes := sevNames.filter fun s => !ui.hiddenSeverities.contains s

def filterParams (ui : FilterState) : List (Bytes × Bytes) :=
  [(ascii "sink", ui.activeSink)] ++
    (if (allowedSev ui).length < sevNames.length then
      [(ascii "sev", joinWith comma ((allowedSev ui).map fun s => s.map lowerByte))] else []) ++
    (if 0 < ui.activeFacilities.length then [(ascii "fac", joinWith comma ui.activeFacilities)] else []) ++
    ui.includePatterns.map (fun p => (ascii "inc", p)) ++
    ui.excludePatterns.map (fun p => (ascii "exc", p)) ++
    (match ui.clearOffset with
      | none => []
      | some o => [(ascii "since", numeral o)])

/-- One name or pattern of a parameter. -/
def parseName (unicodeToLower : ℕ → ℕ) (s : Bytes) : Option Bytes :=
  let t := toLower unicodeToLower (trimSpace s)
  if t ≠ [] then some t else none

/-- A comma-separated parameter. -/
def parseNames (unicodeToLower : ℕ → ℕ) (value : Bytes) : List Bytes :=
  if value ≠ [] then (splitOn comma value).filterMap (parseName unicodeToLower) else []

def parseFilter (unicodeToLower : ℕ → ℕ) (q : List (Bytes × Bytes)) : Filter where
  severities := parseNames unicodeToLower (getParam q (ascii "sev"))
  facilities := parseNames unicodeToLower (getParam q (ascii "fac"))
  includes := (allParams q (ascii "inc")).filterMap (parseName unicodeToLower)
  excludes := (allParams q (ascii "exc")).filterMap (parseName unicodeToLower)

/-- The pipeline from the browser's state to the answer for one line. -/
def admits (unicodeToLower : ℕ → ℕ) (ui : FilterState) (line : Bytes) : Bool :=
  (parseFilter unicodeToLower (parseQuery (queryText (filterParams ui)))).matches (toLower unicodeToLower) line

/-- `facLabel` of the facility in a record. -/
def facLabel (facility : Option Bytes) : Bytes :=
  match facility with
  | none => ascii "unknown"
  | some name => name.map lowerByte

/-! ## What the chips say -/

/-- The chip that stands for a severity code is hidden. -/
def chipHidden (ui : FilterState) (code : ℕ) : Prop :=
  ∃ name, sevNames[code]? = some name ∧ name ∈ ui.hiddenSeverities

def noneHidden (ui : FilterState) : Prop := ∀ s ∈ sevNames, s ∉ ui.hiddenSeverities

def allHidden (ui : FilterState) : Prop := ∀ s ∈ sevNames, s ∈ ui.hiddenSeverities

def severityWanted (ui : FilterState) (severity : Option ℕ) : Prop :=
  match severity with
  | none => noneHidden ui
  | some code => ¬ chipHidden ui code

def facilityWanted (ui : FilterState) (facility : Option Bytes) : Prop :=
  ui.activeFacilities = [] ∨ facLabel facility ∈ ui.activeFacilities

/-- The codes whose chip and name in the record agree. -/
def sharedName (code : ℕ) : Prop := code = 1 ∨ code = 5 ∨ code = 6 ∨ code = 7

/-- When the pipeline does what the chips say. -/
def ChipsAgree (ui : FilterState) (msg : SyslogMessage) : Prop :=
  match msg.severity with
  | none => (noneHidden ui → ascii "unknown" ∉ ui.activeFacilities) ∧ (allHidden ui → ui.activeFacilities ≠ [])
  | some code =>
    facilityWanted ui msg.facilityName → ¬ allHidden ui ∧ (noneHidden ui ∨ sharedName code ∨ chipHidden ui code)

/-- A label of a chip: a word in lower case. -/
def IsChip (label : Bytes) : Prop := label ≠ [] ∧ ∀ c ∈ label, isWord c = true ∧ lowerByte c = c

/-! ## The parameters -/

section Params

variable (unicodeToLower : ℕ → ℕ) (hlower : LowerCase unicodeToLower)

theorem word_visible (c : UInt8) (h : isWord c = true) : 0x21 ≤ c ∧ c < 0x80 ∧ c ≠ comma :=
  forall_byte (fun c => isWord c = true → 0x21 ≤ c ∧ c < 0x80 ∧ c ≠ comma) (by decide +kernel) c h

include hlower in
theorem parseName_chip (s : Bytes) (hs : IsChip s) : parseName unicodeToLower s = some s := by
  have hvisible : ∀ c ∈ s, 0x21 ≤ c ∧ c < 0x80 := fun c hc =>
    ⟨(word_visible c (hs.2 c hc).1).1, (word_visible c (hs.2 c hc).1).2.1⟩
  have hmap : s.map lowerByte = s := by
    rw [List.map_congr_left fun c hc => (hs.2 c hc).2, List.map_id']
  unfold parseName
  rw [trimSpace_visible s hvisible, toLower, hlower.mapRunes_text _ s fun c hc => (hvisible c hc).2, hmap]
  exact if_pos hs.1

include hlower in
/-- A list of chips is read back from its parameter; no chip at all is read as no filter. -/
theorem parseNames_chips (names : List Bytes) (h : ∀ s ∈ names, IsChip s) :
    parseNames unicodeToLower (joinWith comma names) = names := by
  by_cases hne : names = []
  · rw [hne]
    rfl
  · have hcomma : ∀ s ∈ names, comma ∉ s := fun s hs hc => (word_visible comma ((h s hs).2 comma hc).1).2.2 rfl
    unfold parseNames
    rw [if_pos (joinWith_ne_nil comma names hne fun s hs => (h s hs).1),
      splitOn_joinWith comma names hne hcomma,
      List.filterMap_congr fun s hs => parseName_chip unicodeToLower hlower s (h s hs), List.filterMap_some]

/-- The values of the parameters in the query. -/
theorem filterParams_values (ui : FilterState) (hinc : ui.includePatterns = [])
    (hexc : ui.excludePatterns = []) :
    getParam (filterParams ui) (ascii "sev") = (if (allowedSev ui).length < sevNames.length then
      joinWith comma ((allowedSev ui).map fun s => s.map lowerByte) else []) ∧
    getParam (filterParams ui) (ascii "fac") = joinWith comma ui.activeFacilities ∧
    allParams (filterParams ui) (ascii "inc") = [] ∧ allParams (filterParams ui) (ascii "exc") = [] := by
  have hfac : 0 < ui.activeFacilities.length ∨ ui.activeFacilities = [] := by
    rw [List.length_pos_iff]
    exact (em _).symm.imp id id
  unfold filterParams
  rw [hinc, hexc]
  by_cases hsev : (allowedSev ui).length < sevNames.length
  all_goals
    cases hfac with
    | inl hfac =>
      simp only [hsev, hfac, if_true, if_false]
      cases ui.clearOffset with
      | none => exact ⟨rfl, rfl, rfl, rfl⟩
      | some o => exact ⟨rfl, rfl, rfl, rfl⟩
    | inr hfac =>
      simp only [hsev, hfac, if_true, if_false]
      cases ui.clearOffset with
      | none => exact ⟨rfl, rfl, rfl, rfl⟩
      | some o => exact ⟨rfl, rfl, rfl, rfl⟩

theorem sevNames_chips : ∀ s ∈ sevNames, s.map lowerByte ≠ [] ∧ ∀ c ∈ s.map lowerByte, isWord c = true ∧
    lowerByte c = c := by
  decide +kernel

/-- Fewer than all names are sent exactly if one is hidden. -/
theorem allowedSev_lt (ui : FilterState) : (allowedSev ui).length < sevNames.length ↔ ¬ noneHidden ui := by
  have hle : (allowedSev ui).length ≤ sevNames.length := List.length_filter_le _ _
  have heq : (allowedSev ui).length = sevNames.length ↔ noneHidden ui := by
    unfold allowedSev noneHidden
    rw [List.length_filter_eq_length_iff]
    simp
  rw [← heq]
  omega

include hlower in
/-- The filter the handler builds. -/
theorem parseFilter_chips (ui : FilterState) (hinc : ui.includePatterns = []) (hexc : ui.excludePatterns = [])
    (hchips : ∀ a ∈ ui.activeFacilities, IsChip a) [Decidable (noneHidden ui)] :
    parseFilter unicodeToLower (parseQuery (queryText (filterParams ui))) =
      ⟨if noneHidden ui then [] else (allowedSev ui).map fun s => s.map lowerByte, ui.activeFacilities, [],
        []⟩ := by
  have hquery : parseQuery (queryText (filterParams ui)) = filterParams ui :=
    parseQuery_queryText _ (by simp [filterParams])
  obtain ⟨hsev, hfac, hincs, hexcs⟩ := filterParams_values ui hinc hexc
  have hsevChips : ∀ s ∈ (allowedSev ui).map fun s => s.map lowerByte, IsChip s := by
    intro s hs
    obtain ⟨name, hname, rfl⟩ := List.mem_map.mp hs
    exact sevNames_chips name (List.mem_filter.mp hname).1
  unfold parseFilter
  rw [hquery, hsev, hfac, hincs, hexcs, parseNames_chips unicodeToLower hlower _ hchips]
  congr 1
  by_cases hnone : noneHidden ui
  · rw [if_neg (fun h => (allowedSev_lt ui).mp h hnone), if_pos hnone]
    rfl
  · rw [if_pos ((allowedSev_lt ui).mpr hnone), if_neg hnone, parseNames_chips unicodeToLower hlower _ hsevChips]

theorem matches_lists (lower : Bytes → Bytes) (severities facilities : List Bytes) (line : Bytes) :
    (Filter.mk severities facilities [] []).matches lower line = true ↔
      (severities = [] ∨ matchStringField (lower line) (ascii "severity") severities = true) ∧
      (facilities = [] ∨ matchStringField (lower line) (ascii "facility") facilities = true) := by
  unfold Filter.matches
  simp only [List.any_nil, Bool.false_eq_true, if_false, ne_eq, not_true_eq_false, false_and]
  by_cases h1 : severities ≠ [] ∧ matchStringField (lower line) (ascii "severity") severities = false
  · rw [if_pos h1]
    simp [h1.1, h1.2]
  · rw [if_neg h1]
    have hsev : severities = [] ∨ matchStringField (lower line) (ascii "severity") severities = true := by
      rw [not_and_or, ne_eq, not_not, Bool.not_eq_false] at h1
      exact h1
    by_cases h2 : facilities ≠ [] ∧ matchStringField (lower line) (ascii "facility") facilities = false
    · rw [if_pos h2]
      simp [h2.1, h2.2]
    · rw [if_neg h2]
      have hfac : facilities = [] ∨ matchStringField (lower line) (ascii "facility") facilities = true := by
        rw [not_and_or, ne_eq, not_not, Bool.not_eq_false] at h2
        exact h2
      exact ⟨fun _ => ⟨hsev, hfac⟩, fun _ => rfl⟩

end Params

/-! ## Records -/

/-- A name of the severity table is sent for a chip exactly if both tables have it. -/
theorem severity_names (code : ℕ) (name : Bytes) (hname : kSeverityNames[code]? = some name) (s : Bytes)
    (hs : s ∈ sevNames) :
    s.map lowerByte = name.map lowerByte ↔ sharedName code ∧ sevNames[code]? = some s := by
  have hall : ∀ code < 8, ∀ s ∈ sevNames, (s.map lowerByte = ((kSeverityNames[code]?).getD []).map lowerByte ↔
      (code = 1 ∨ code = 5 ∨ code = 6 ∨ code = 7) ∧ sevNames[code]? = some s) := by
    decide +kernel
  have hlt : code < 8 := by
    rw [← kSeverityNames_length]
    exact (List.getElem?_eq_some_iff.mp hname).1
  have h := hall code hlt s hs
  rw [hname] at h
  exact h

theorem severity_sent (ui : FilterState) (code : ℕ) (name : Bytes) (hname : kSeverityNames[code]? = some name) :
    name.map lowerByte ∈ (allowedSev ui).map (fun s => s.map lowerByte) ↔ sharedName code ∧
    ¬ chipHidden ui code := by
  unfold allowedSev chipHidden
  rw [List.mem_map]
  constructor
  · intro h
    obtain ⟨s, hs, hlow⟩ := h
    obtain ⟨hmem, hshown⟩ := List.mem_filter.mp hs
    obtain ⟨hshared, hchip⟩ := (severity_names code name hname s hmem).mp hlow
    refine ⟨hshared, fun hhidden => ?_⟩
    obtain ⟨s', hs', hin⟩ := hhidden
    rw [hchip] at hs'
    rw [← Option.some.inj hs'] at hin
    simp [hin] at hshown
  · intro h
    have hlt : code < sevNames.length := by
      have := (List.getElem?_eq_some_iff.mp hname).1
      rwa [kSeverityNames_length] at this
    have hchip : sevNames[code]? = some sevNames[code] := List.getElem?_eq_getElem hlt
    have hmem : sevNames[code] ∈ sevNames := List.getElem_mem hlt
    refine ⟨sevNames[code], List.mem_filter.mpr ⟨hmem, ?_⟩,
      (severity_names code name hname _ hmem).mpr ⟨h.1, hchip⟩⟩
    have : sevNames[code] ∉ ui.hiddenSeverities := fun hin => h.2 ⟨_, hchip, hin⟩
    simp [this]

/-- Nothing is sent exactly if all chips are hidden. -/
theorem allowedSev_nil (ui : FilterState) : (allowedSev ui).map (fun s => s.map lowerByte) = [] ↔
    allHidden ui := by
  unfold allowedSev allHidden
  rw [List.map_eq_nil_iff, List.filter_eq_nil_iff]
  simp

section Agreement

variable (unicodeToLower : ℕ → ℕ) (hlower : LowerCase unicodeToLower) (escape : Bytes → Bytes)
  (hescape : StringEscape escape)

include hlower hescape

/-- What the pipeline admits. -/
theorem admits_record (data rcv srcIp : Bytes) (msg : SyslogMessage) (hmsg : parseSyslog data = .ok msg)
    (ui : FilterState) (hinc : ui.includePatterns = []) (hexc : ui.excludePatterns = [])
    (hchips : ∀ a ∈ ui.activeFacilities, IsChip a) :
    admits unicodeToLower ui (toJsonlRecord (serializeObject escape) { msg with srcIp := srcIp } rcv) = true ↔
      (noneHidden ui ∨ allHidden ui ∨ ∃ code, msg.severity = some code ∧ sharedName code ∧
        ¬ chipHidden ui code) ∧
      (ui.activeFacilities = [] ∨ ∃ name, msg.facilityName = some name ∧
        name.map lowerByte ∈ ui.activeFacilities) := by
  classical
  obtain ⟨htableS, htableF⟩ := names_in_tables data msg hmsg
  have hseverity := matchStringField_member unicodeToLower hlower escape hescape { msg with srcIp := srcIp } rcv
    (ascii "severity") msg.severityName (forall_mem_byte _ _ (by decide)) (by decide) rfl htableS
  have hfacility := matchStringField_member unicodeToLower hlower escape hescape { msg with srcIp := srcIp } rcv
    (ascii "facility") msg.facilityName (forall_mem_byte _ _ (by decide)) (by decide) rfl htableF
  have htext : ∀ name ∈ kFacilityNames ++ kSeverityNames,
      toLower unicodeToLower name = name.map lowerByte := fun name hname =>
    hlower.mapRunes_text _ name (table_names name hname).2.2.1
  unfold admits
  rw [parseFilter_chips unicodeToLower hlower ui hinc hexc hchips, matches_lists, hseverity, hfacility]
  -- the two halves of the filter, each in terms of the tables
  refine and_congr ?_ (or_congr Iff.rfl ?_)
  · by_cases hnone : noneHidden ui
    · simp [hnone]
    · rw [if_neg hnone, allowedSev_nil ui, or_iff_right hnone]
      refine or_congr Iff.rfl ?_
      cases parseSyslog_names data msg hmsg with
      | inl habsent =>
        rw [habsent.2.2.2, habsent.2.1]
        simp
      | inr hpresent =>
        obtain ⟨facility, severity, fn, sn, -, hs, -, -, hsn, hsn'⟩ := hpresent
        rw [hsn', hs]
        have hlow := htext sn (htableS sn hsn')
        constructor
        · intro h
          obtain ⟨name, hname, hmem⟩ := h
          rw [← Option.some.inj hname, hlow] at hmem
          exact ⟨severity, rfl, (severity_sent ui severity sn hsn).mp hmem⟩
        · intro h
          obtain ⟨code, hcode, hsent⟩ := h
          rw [← Option.some.inj hcode] at hsent
          exact ⟨sn, rfl, by rw [hlow]; exact (severity_sent ui severity sn hsn).mpr hsent⟩
  · constructor
    · intro h
      obtain ⟨name, hname, hmem⟩ := h
      rw [htext name (htableF name hname)] at hmem
      exact ⟨name, hname, hmem⟩
    · intro h
      obtain ⟨name, hname, hmem⟩ := h
      exact ⟨name, hname, by rw [htext name (htableF name hname)]; exact hmem⟩

omit hlower hescape in
/-- The case of a record without a severity, as a matter of logic. -/
theorem absent_agree (noneHid allHid noFac unknown : Prop) (hboth : ¬ (noneHid ∧ allHid))
    (hunknown : unknown → ¬ noFac) :
    (((noneHid ∨ allHid) ∧ noFac) ↔ (noneHid ∧ (noFac ∨ unknown))) ↔
    ((noneHid → ¬ unknown) ∧ (allHid → ¬ noFac)) := by
  by_cases hn : noneHid
  · have hno : ¬ allHid := fun h => hboth ⟨hn, h⟩
    by_cases hu : unknown
    · simp [hn, hu, hunknown hu]
    · simp [hn, hu, hno]
  · simp [hn]

omit hlower hescape in
/-- The case of a record with a severity, as a matter of logic. -/
theorem halves_agree (noneHid allHid shared hidden fac : Prop) (hall : allHid → hidden)
    (hnone : noneHid → ¬ hidden) :
    (((noneHid ∨ allHid ∨ shared ∧ ¬ hidden) ∧ fac) ↔ (¬ hidden ∧ fac)) ↔
    (fac → ¬ allHid ∧ (noneHid ∨ shared ∨ hidden)) := by
  by_cases hf : fac
  · by_cases hh : hidden
    · have hno : ¬ noneHid := fun h => hnone h hh
      simp [hf, hh, hno]
    · have hno : ¬ allHid := fun h => hh (hall h)
      simp [hf, hh, hno]
  · simp [hf]

/-- The pipeline does what the chips say exactly under `ChipsAgree`. -/
theorem chips_agree (data rcv srcIp : Bytes) (msg : SyslogMessage) (hmsg : parseSyslog data = .ok msg)
    (ui : FilterState) (hinc : ui.includePatterns = []) (hexc : ui.excludePatterns = [])
    (hchips : ∀ a ∈ ui.activeFacilities, IsChip a) :
    (admits unicodeToLower ui (toJsonlRecord (serializeObject escape) { msg with srcIp := srcIp } rcv) = true ↔
      severityWanted ui msg.severity ∧ facilityWanted ui msg.facilityName) ↔ ChipsAgree ui msg := by
  have hboth : ¬ (noneHidden ui ∧ allHidden ui) := fun h => by
    have hmem : ascii "EMERG" ∈ sevNames := by decide
    exact h.1 _ hmem (h.2 _ hmem)
  rw [admits_record unicodeToLower hlower escape hescape data rcv srcIp msg hmsg ui hinc hexc hchips]
  cases parseSyslog_names data msg hmsg with
  | inl habsent =>
    obtain ⟨-, hs, hf, -⟩ := habsent
    unfold ChipsAgree severityWanted facilityWanted
    rw [hs, hf]
    simp only [facLabel]
    have hunknown : ascii "unknown" ∈ ui.activeFacilities → ui.activeFacilities ≠ [] :=
      fun h => List.ne_nil_of_mem h
    have hcode : ¬ ∃ code, (none : Option ℕ) = some code ∧ sharedName code ∧ ¬ chipHidden ui code :=
      fun ⟨_, h, _⟩ => by cases h
    have hname : ¬ ∃ name, (none : Option Bytes) = some name ∧ name.map lowerByte ∈ ui.activeFacilities :=
      fun ⟨_, h, _⟩ => by
      cases h
    simp only [hcode, hname, or_false]
    exact absent_agree _ _ _ _ hboth hunknown
  | inr hpresent =>
    obtain ⟨facility, severity, fn, sn, -, hs, -, hfn, hsn, -⟩ := hpresent
    have hlt : severity < sevNames.length := by
      have := (List.getElem?_eq_some_iff.mp hsn).1
      rwa [kSeverityNames_length] at this
    have hchip : sevNames[severity]? = some sevNames[severity] := List.getElem?_eq_getElem hlt
    have hmem : sevNames[severity] ∈ sevNames := List.getElem_mem hlt
    have hall : allHidden ui → chipHidden ui severity := fun h => ⟨_, hchip, h _ hmem⟩
    have hnone : noneHidden ui → ¬ chipHidden ui severity := by
      intro h hhidden
      obtain ⟨s, hs, hin⟩ := hhidden
      rw [hchip] at hs
      rw [← Option.some.inj hs] at hin
      exact h _ hmem hin
    unfold ChipsAgree severityWanted facilityWanted
    rw [hs, hfn]
    simp only [facLabel, Option.some.injEq, exists_eq_left']
    exact halves_agree _ _ _ _ _ hall hnone

end Agreement

/-- The chip DEBUG hidden and the facility chip user active: a record of severity INFO is shown. -/
theorem chips_agree_info :
    ∃ msg, parseSyslog (ascii "<14>1 - h - - - x") = .ok msg ∧
      admits someToLower ⟨ascii "s", [ascii "DEBUG"], [ascii "user"], [], [], none⟩
        (toJsonlRecord (serializeObject jsonEscape) { msg with srcIp := ascii "::1" } (ascii "now")) =
          true := by
  obtain ⟨msg, hmsg, hseverity, hfacility⟩ : ∃ msg, parseSyslog (ascii "<14>1 - h - - - x") = .ok msg ∧
      msg.severity = some 6 ∧ msg.facilityName = some (ascii "user") :=
      ⟨_, rfl, by decide +kernel, by decide +kernel⟩
  have hnot : ¬ chipHidden ⟨ascii "s", [ascii "DEBUG"], [ascii "user"], [], [], none⟩ 6 := by
    intro h
    obtain ⟨name, hname, hin⟩ := h
    rw [List.mem_singleton.mp hin] at hname
    exact absurd hname (by decide)
  have hshown : ¬ allHidden ⟨ascii "s", [ascii "DEBUG"], [ascii "user"], [], [], none⟩ := by
    intro h
    exact absurd (h (ascii "INFO") (by decide)) (by decide)
  refine ⟨msg, hmsg, (((chips_agree someToLower someToLower_spec jsonEscape jsonEscape_spec _ (ascii "now")
    (ascii "::1") msg hmsg
    _ rfl rfl ?_).mpr ?_).mpr ⟨?_, ?_⟩)⟩
  · intro a ha
    rw [List.mem_singleton.mp ha]
    exact ⟨by decide, forall_mem_byte _ _ (by decide)⟩
  · unfold ChipsAgree
    rw [hseverity]
    exact fun _ => ⟨hshown, .inr (.inl (.inr (.inr (.inl rfl))))⟩
  · rw [hseverity]
    exact hnot
  · rw [hfacility]
    exact .inr (by decide)

/-- The chip DEBUG hidden: a record of severity ERROR is not shown, although its chip is not hidden. -/
theorem chips_disagree :
    ∃ msg, parseSyslog (ascii "<11>1 - h - - - x") = .ok msg ∧
      severityWanted ⟨ascii "s", [ascii "DEBUG"], [], [], [], none⟩ msg.severity ∧
      facilityWanted ⟨ascii "s", [ascii "DEBUG"], [], [], [], none⟩ msg.facilityName ∧
      admits someToLower ⟨ascii "s", [ascii "DEBUG"], [], [], [], none⟩
        (toJsonlRecord (serializeObject jsonEscape) { msg with srcIp := ascii "::1" } (ascii "now")) =
          false := by
  obtain ⟨msg, hmsg, hrest⟩ : ∃ msg, parseSyslog (ascii "<11>1 - h - - - x") = .ok msg ∧ msg.severity = some 3 ∧
      admits someToLower ⟨ascii "s", [ascii "DEBUG"], [], [], [], none⟩
        (toJsonlRecord (serializeObject jsonEscape) { msg with srcIp := ascii "::1" } (ascii "now")) = false :=
    ⟨_, rfl, by decide +kernel, by decide +kernel⟩
  refine ⟨msg, hmsg, ?_, .inl rfl, hrest.2⟩
  rw [hrest.1]
  intro h
  obtain ⟨name, hname, hin⟩ := h
  rw [List.mem_singleton.mp hin] at hname
  exact absurd hname (by decide)

end Minilog.Viewer
