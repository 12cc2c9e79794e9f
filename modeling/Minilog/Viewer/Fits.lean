import Minilog.Output.Sanitize
import Minilog.Viewer.FieldScan
import Minilog.Viewer.Records

/-! The records the server writes fit the viewer.

The fields of a message are disjoint pieces of its datagram, and repairing and escaping together make at most
six bytes of one. So a record has at most six bytes for each byte of the datagram, and some for the rest
(`record_length`); every reader takes a line of that size (`Accepted`). -/
namespace Minilog.Viewer
open Lib
open Minilog.Output Minilog.Parser
set_option autoImplicit false

/-- `UdpServer::BUFFER_SIZE`. -/
def bufferSize : ℕ := 65507

/-- What a byte of valid UTF-8 takes in a string: a character of ASCII may be escaped, any other is written as
it is. -/
def escapedSize (c : UInt8) : ℕ := if c < 0x80 then 6 else 1

/-- What a field takes in a record, without its quotes. -/
def fieldSize (escape : Bytes → Bytes) (f : Option Bytes) : ℕ :=
  (((f.map sanitizeUtf8).map escape).getD []).length

/-- How long a string becomes that `boost::json` writes: six bytes at most for each of its bytes, and in valid
UTF-8 only ASCII takes more than one. -/
structure EscapeSize (escape : Bytes → Bytes) : Prop where
  sixfold : ∀ s, (escape s).length ≤ 6 * s.length
  valid : ∀ s, WellFormed s → (escape s).length ≤ (s.map escapedSize).sum
  oneLine : ∀ s, lf ∉ escape s

/-- The record of a datagram that fits the buffer, from an address of at most 64 bytes, at a time of 20. -/
def Written (escape : Bytes → Bytes) (record : Bytes) : Prop :=
  ∃ data srcIp rcv msg, data.length ≤ bufferSize ∧ srcIp.length ≤ 64 ∧ rcv.length = 20 ∧
    parseSyslog data = .ok msg ∧
    record = toJsonlRecord (serializeObject escape) { msg with srcIp := srcIp } rcv

/-- A file of records, each with its LF. -/
def linesText (records : List Bytes) : Bytes := records.flatMap (· ++ [lf])

/-- The records a filter keeps, with the offsets of their lines. -/
def wanted (lower : Bytes → Bytes) (filter : Filter) (o : ℕ) (records : List Bytes) : List (ℕ × Bytes) :=
  (counted o records).filter fun p => filter.matches lower p.2

/-- Every reader answers as if there were no limit on the length of a line. -/
structure Accepted (dir : Directory) (sink : Sink) (records : List Bytes) : Prop where
  forward : ∀ (lower : Bytes → Bytes) (filter : Filter) (count maxResponseBytes : ℕ), 1 ≤ count →
    ∀ before behind, records = before ++ behind →
      let o := (linesText before).length
      let page := (newFileChain (fun _ => dir) sink).readForward
        (fun _ => dir) lower maxResponseBytes o count filter
      let entries := greedy weight count maxResponseBytes (wanted lower filter o behind)
      page.lines = entries.map Prod.snd ∧ page.offsets = entries.map Prod.fst
  backward : ∀ (lower : Bytes → Bytes) (filter : Filter) (count maxResponseBytes : ℕ) (since : ℤ),
    ∀ before behind, records = before ++ behind →
      let o := (linesText before).length
      let recent := (wanted lower filter 0 before).filter fun p => decide (since < 0 ∨ since ≤ (p.1 : ℤ))
      (newFileChain (fun _ => dir) sink).readBackward
      (fun _ => dir) lower maxResponseBytes o count filter since =
        pageOf o (greedy weight count maxResponseBytes recent.reverse).reverse
  search : ∀ (lower : Bytes → Bytes) (filter : Filter) (q : Bytes) (limit : ℕ) (since : ℤ),
    let hits := (wanted lower filter 0 records).filter fun p =>
      decide (since < 0 ∨ since ≤ (p.1 : ℤ)) && contains (lower p.2) (lower q)
    (newFileChain (fun _ => dir) sink).search (fun _ => dir) lower q limit filter since =
      ⟨(hits.map Prod.fst).take limit, hits.length⟩

/-! ## Fields -/

theorem escapedSize_le (c : UInt8) : escapedSize c ≤ 6 := by
  unfold escapedSize
  split_ifs
  all_goals decide

theorem escapedSize_text (s : Bytes) : (s.map escapedSize).sum ≤ 6 * s.length := by
  induction s with
  | nil => exact Nat.le_refl 0
  | cons c s ih =>
    have := escapedSize_le c
    rw [List.map_cons, List.sum_cons, List.length_cons]
    omega

/-- A byte that is replaced becomes three bytes that need no escape, a byte that is copied at most six. -/
theorem escapedSize_repaired (s out : Bytes) (h : Repaired kReplacement s out) :
    (out.map escapedSize).sum ≤ 6 * s.length := by
  induction h with
  | done => exact Nat.le_refl 0
  | copied c s out _ ih =>
    have := escapedSize_text (String.utf8EncodeChar c)
    rw [List.map_append, List.sum_append, List.length_append]
    omega
  | marked b s out _ _ ih =>
    have hmark : (kReplacement.map escapedSize).sum = 3 := by decide
    rw [List.map_append, List.sum_append, hmark, List.length_cons]
    omega

theorem fieldValues_length (msg : SyslogMessage) :
    ((fieldValues msg).map List.length).sum = (msg.timestamp.getD []).length + (msg.hostname.getD []).length +
      (msg.appName.getD []).length + (msg.procId.getD []).length + (msg.msgId.getD []).length +
      msg.message.length := by
  have hfield : ∀ f : Option Bytes, (f.toList.map List.length).sum = (f.getD []).length := by
    intro f
    cases f with
    | none => rfl
    | some v => rfl
  simp only [fieldValues, filterMap_id_cons, List.filterMap_nil, List.append_nil, List.map_append,
    List.sum_append, hfield, List.map_singleton, List.sum_singleton]
  omega

/-- No byte of a datagram is in two fields. -/
theorem parseSyslog_fields_length (data : Bytes) (msg : SyslogMessage) (h : parseSyslog data = .ok msg) :
    ((fieldValues msg).map List.length).sum ≤ data.length := by
  obtain ⟨m, hparse, -, hord⟩ := parseSyslog_inOrder data
  rw [hparse] at h
  cases h
  have hstrip : (stripLineEnds data).length ≤ data.length := (List.rdropWhile_prefix isLineEnd data).length_le
  exact Nat.le_trans (hord.length_le _ _) hstrip

theorem table_names_length (name : Bytes) (h : name ∈ kFacilityNames ++ kSeverityNames) : name.length ≤ 9 := by
  revert name
  decide

/-! ## Records -/

section Record

variable (escape : Bytes → Bytes) (hescape : EscapeSize escape)

include hescape

theorem EscapeSize.sanitized (s : Bytes) : (escape (sanitizeUtf8 s)).length ≤ 6 * s.length :=
  Nat.le_trans (hescape.valid _ (wellFormed_sanitizeUtf8 s))
    (escapedSize_repaired s _ (sanitizeUtf8_repaired s))

theorem fieldSize_le (f : Option Bytes) : fieldSize escape f ≤ 6 * (f.getD []).length := by
  cases f with
  | none => exact Nat.zero_le _
  | some s => exact hescape.sanitized escape s

theorem serializeObject_length (ms : List (Bytes × Option Bytes)) : (serializeObject escape ms).length ≤
    (ms.map fun m => 6 * m.1.length + 8).sum + (ms.map fun m => ((m.2.map escape).getD []).length).sum + 2 := by
  have hmembers : ((ms.map fun m => (escape m.1, m.2.map escape)).map fun m =>
        m.1.length + (m.2.getD []).length + 8).sum ≤
      (ms.map fun m => 6 * m.1.length + 8).sum +
        (ms.map fun m => ((m.2.map escape).getD []).length).sum := by
    induction ms with
    | nil => exact Nat.le_refl 0
    | cons m ms ih =>
      have hkey := hescape.sixfold m.1
      simp only [List.map_cons, List.sum_cons]
      omega
  exact Nat.le_trans (objectText_length _) (by omega)

/-- A record has six bytes at most for each byte it is made from, and 606 for its keys, its names and the JSON
around them. -/
theorem record_length (data srcIp rcv : Bytes) (msg : SyslogMessage) (hmsg : parseSyslog data = .ok msg) :
    (toJsonlRecord (serializeObject escape) { msg with srcIp := srcIp } rcv).length ≤
      6 * (data.length + srcIp.length + rcv.length) + 606 := by
  have hfields := parseSyslog_fields_length data msg hmsg
  rw [fieldValues_length] at hfields
  have hnames : (msg.facilityName.getD []).length ≤ 9 ∧ (msg.severityName.getD []).length ≤ 9 := by
    obtain ⟨hseverity, hfacility⟩ := names_in_tables data msg hmsg
    have hname : ∀ f : Option Bytes, (∀ name ∈ f, name ∈ kFacilityNames ++ kSeverityNames) →
        (f.getD []).length ≤ 9 := by
      intro f hf
      cases f with
      | none => exact Nat.zero_le 9
      | some name => exact table_names_length name (hf name rfl)
    exact ⟨hname _ hfacility, hname _ hseverity⟩
  have hkeys : (recordMembers { msg with srcIp := srcIp } rcv).map (fun m => 6 * m.1.length + 8) =
      [26, 26, 38, 56, 56, 56, 26, 26, 38, 56, 50] := rfl
  have hvalues : ∃ proto : Bytes, proto.length = 7 ∧
      (recordMembers { msg with srcIp := srcIp } rcv).map (fun m => ((m.2.map escape).getD []).length) =
        [(escape rcv).length, (escape srcIp).length, (escape proto).length, fieldSize escape msg.facilityName,
          fieldSize escape msg.severityName, fieldSize escape msg.hostname, fieldSize escape msg.appName,
          fieldSize escape msg.procId, fieldSize escape msg.msgId, fieldSize escape msg.timestamp,
          (escape (sanitizeUtf8 msg.message)).length] := by
    unfold recordMembers
    dsimp only
    cases msg.protocol with
    | rfc3164 => exact ⟨ascii "RFC3164", rfl, rfl⟩
    | rfc5424 => exact ⟨ascii "RFC5424", rfl, rfl⟩
    | unknown => exact ⟨ascii "UNKNOWN", rfl, rfl⟩
  obtain ⟨proto, hproto, hvalues⟩ := hvalues
  have hsize := serializeObject_length escape hescape (recordMembers { msg with srcIp := srcIp } rcv)
  rw [hkeys, hvalues] at hsize
  simp only [List.sum_cons, List.sum_nil] at hsize
  have hrcv := hescape.sixfold rcv
  have hsrc := hescape.sixfold srcIp
  have hprotocol := hescape.sixfold proto
  have hfield := fieldSize_le escape hescape
  have hfacility := hfield msg.facilityName
  have hseverity := hfield msg.severityName
  have hhostname := hfield msg.hostname
  have happ := hfield msg.appName
  have hpid := hfield msg.procId
  have hmsgid := hfield msg.msgId
  have htime := hfield msg.timestamp
  have hmessage := hescape.sanitized escape msg.message
  unfold toJsonlRecord
  omega

theorem Written.fits (record : Bytes) (h : Written escape record) : (record ++ [lf]).length < maxLineBytes := by
  obtain ⟨data, srcIp, rcv, msg, hdata, hsrc, hrcv, hmsg, rfl⟩ := h
  have hlen := record_length escape hescape data srcIp rcv msg hmsg
  unfold bufferSize at hdata
  unfold maxLineBytes
  rw [List.length_append, List.length_singleton]
  omega

/-- What the server writes is a record for the viewer. -/
theorem Written.exists_record (record : Bytes) (h : Written escape record) :
    record ∈ Set.range Record.text := by
  have hfits := h.fits escape hescape
  rw [List.length_append, List.length_singleton] at hfits
  obtain ⟨data, srcIp, rcv, msg, -, -, -, -, hrecord⟩ := h
  have hlast : record.getLast? = some 0x7D := by
    rw [hrecord]
    exact objectText_last _
  have hne : record ≠ [] := by
    rintro rfl
    cases hlast
  have hline : lf ∉ record := by
    rw [hrecord]
    apply lf_notMem_objectText
    intro m hm
    obtain ⟨m', -, rfl⟩ := List.mem_map.mp hm
    refine ⟨hescape.oneLine _, fun t ht => ?_⟩
    obtain ⟨s, -, rfl⟩ := Option.mem_map.mp ht
    exact hescape.oneLine s
  have hcr : record.getLast? ≠ some cr := by
    rw [hlast]
    decide
  exact ⟨⟨record, hne, hline, by omega, hcr⟩, rfl⟩

end Record

/-! ## Reading them -/

theorem recordsText_texts (rs : List Record) : recordsText rs = linesText (rs.map Record.text) := by
  unfold recordsText linesText
  rw [List.flatMap_map]

theorem kept_located (lower : Bytes → Bytes) (filter : Filter) (o : ℕ) (rs : List Record) :
    kept (filter.matches lower) (located o rs) = wanted lower filter o (rs.map Record.text) := by
  apply List.filter_congr
  intro p hp
  have hne := located_nonempty o rs p hp
  rw [Bool.and_eq_right_iff_imp]
  intro _
  rw [Bool.not_eq_true', List.isEmpty_eq_false_iff]
  exact hne

/-- A chain of records is read without regard to how long they are. -/
theorem Stores.accepted (dir : Directory) (sink : Sink) (rs : List Record) (h : Stores dir sink rs) :
    Accepted dir sink (rs.map Record.text) where
  forward := by
    intro lower filter count maxResponseBytes hcount before behind hsplit o page entries
    obtain ⟨bs, cs, hrs, rfl, rfl⟩ := List.map_eq_append_iff.mp hsplit
    obtain ⟨-, -, -, -, hentries, hlines, hoffsets, -⟩ :=
      h.readForward_records dir sink rs lower filter count maxResponseBytes hcount bs cs hrs
    dsimp only at hentries
    rw [kept_located, recordsText_texts] at hentries
    rw [recordsText_texts] at hlines hoffsets
    rw [hentries] at hlines hoffsets
    exact ⟨hlines, hoffsets⟩
  backward := by
    intro lower filter count maxResponseBytes since before behind hsplit o recent
    obtain ⟨bs, cs, hrs, rfl, rfl⟩ := List.map_eq_append_iff.mp hsplit
    have hpage := h.readBackward_records dir sink rs lower filter count maxResponseBytes since bs cs hrs
    rw [kept_located, recordsText_texts] at hpage
    exact hpage
  search := by
    intro lower filter q limit since hits
    have hlines := h.lines_plain dir sink rs
    have hseen : kept (filter.matches lower) (sees dir (newFileChain (fun _ => dir) sink).files 0) =
        wanted lower filter 0 (rs.map Record.text) := by
      rw [kept_sees_plain lower dir sink filter hlines, h.kept_lines dir sink rs, kept_located]
    have hfound := search_sees dir _ _ (newFileChain_holds dir sink) lower q limit filter since
    rw [hseen] at hfound
    exact hfound

/-- Every line the server writes is shorter than `maxLineBytes`, and every reader takes every line of files of
such lines. -/
theorem written_lines_fit (escape : Bytes → Bytes) (hescape : EscapeSize escape) :
    (∀ data srcIp rcv : Bytes, data.length ≤ bufferSize → srcIp.length ≤ 64 → rcv.length = 20 →
      ∃ msg, parseSyslog data = .ok msg ∧
        (toJsonlRecord (serializeObject escape) { msg with srcIp := srcIp } rcv ++ [lf]).length <
          maxLineBytes) ∧
    ∀ (dir : Directory) (sink : Sink) (files : List (List Bytes)),
    (∀ records ∈ files, ∀ record ∈ records, Written escape record) →
      (candidates sink).filterMap dir = files.map linesText → Accepted dir sink files.flatten := by
  constructor
  · intro data srcIp rcv hdata hsrc hrcv
    obtain ⟨msg, hmsg, -⟩ := parseSyslog_text data
    exact ⟨msg, hmsg, Written.fits escape hescape _ ⟨data, srcIp, rcv, msg, hdata, hsrc, hrcv, hmsg, rfl⟩⟩
  · intro dir sink files hwritten hdir
    have hfile : ∀ records ∈ files, records ∈ Set.range (List.map Record.text) := by
      intro records hrecords
      rw [Set.range_list_map]
      exact fun record hrecord => (hwritten records hrecords record hrecord).exists_record escape hescape
    have hfiles : files ∈ Set.range (List.map (List.map Record.text)) := by
      rw [Set.range_list_map]
      exact hfile
    obtain ⟨gs, rfl⟩ := hfiles
    have hstores := stores_of_groups dir sink gs
      (by rw [hdir, List.map_map]; exact List.map_congr_left fun g _ => (recordsText_texts g).symm)
    rw [← List.map_flatten]
    exact hstores.accepted dir sink _

theorem jsonEscape_size : EscapeSize jsonEscape := by
  have hbyte : ∀ c, (jsonByte c).length ≤ escapedSize c :=
    forall_byte (fun c => (jsonByte c).length ≤ escapedSize c) (by decide +kernel)
  have hsize : ∀ s, (jsonEscape s).length ≤ (s.map escapedSize).sum := by
    intro s
    induction s with
    | nil => exact Nat.le_refl 0
    | cons c s ih =>
      have := hbyte c
      unfold jsonEscape at ih ⊢
      rw [List.flatMap_cons, List.length_append, List.map_cons, List.sum_cons]
      omega
  refine ⟨fun s => Nat.le_trans (hsize s) (escapedSize_text s), fun s _ => hsize s, fun s hlf => ?_⟩
  obtain ⟨c, -, hc⟩ := List.mem_flatMap.mp hlf
  exact lf_notMem_jsonByte c hc

def oneFile (record : Bytes) : Directory :=
  fun path => if path = ascii "/l/s.jsonl" then some (record ++ [lf]) else none

/-- A datagram that fills the buffer, each byte of it written as six. -/
theorem written_lines_fit_control :
    ∃ msg, parseSyslog (List.replicate bufferSize 0x01) = .ok msg ∧
      let record :=
        toJsonlRecord (serializeObject jsonEscape) { msg with srcIp := ascii "::1" } (ascii "2026-01-01T00:00:00Z")
      (record ++ [lf]).length < maxLineBytes ∧
        ((newFileChain (fun _ => oneFile record) ⟨ascii "s", ascii "/l/s.jsonl", 0⟩).readForward
          (fun _ => oneFile record) id 0 0 1 everything).lines = [record] := by
  obtain ⟨hshort, haccepted⟩ := written_lines_fit jsonEscape jsonEscape_size
  have hdata : (List.replicate bufferSize (0x01 : UInt8)).length ≤ bufferSize := (List.length_replicate).le
  have hrcv : (ascii "2026-01-01T00:00:00Z").length = 20 := rfl
  obtain ⟨msg, hmsg, hlen⟩ := hshort _ (ascii "::1") _ hdata (by decide) hrcv
  refine ⟨msg, hmsg, hlen, ?_⟩
  generalize hrecord : toJsonlRecord (serializeObject jsonEscape) { msg with srcIp := ascii "::1" }
    (ascii "2026-01-01T00:00:00Z") = record
  have hwritten : Written jsonEscape record := ⟨_, _, _, msg, hdata, by decide, hrcv, hmsg, hrecord.symm⟩
  have hdir : (candidates ⟨ascii "s", ascii "/l/s.jsonl", 0⟩).filterMap (oneFile record) =
      [[record]].map linesText := by
    have hcandidates : candidates ⟨ascii "s", ascii "/l/s.jsonl", 0⟩ = [ascii "/l/s.jsonl"] := by decide
    have hfile : oneFile record (ascii "/l/s.jsonl") = some (linesText [record]) := by
      rw [oneFile, if_pos rfl, linesText, List.flatMap_singleton]
    rw [hcandidates, List.filterMap_cons, hfile]
    rfl
  have hall : wanted id everything 0 [record] = [(0, record)] :=
    List.filter_eq_self.mpr fun p _ => matches_everything id p.2
  have hread := (haccepted _ _ _ (by simpa using hwritten) hdir).forward id everything 1 0 (Nat.le_refl 1)
    [] [record] rfl
  change _ = (greedy weight 1 0 (wanted id everything 0 [record])).map Prod.snd ∧ _ at hread
  rw [hall, greedy_one] at hread
  exact hread.1

end Minilog.Viewer
