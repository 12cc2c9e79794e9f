import Minilog.Cli.Session
import Minilog.Lib.JsonObject
import Minilog.Lib.PythonText
import Minilog.Output.LogFile
import Minilog.Output.Sanitize
import Mathlib.Data.List.ReduceOption

/-! A session of the cli-viewer on the file that the server writes.

The server writes a record for each message, `toJsonlRecord` and a line end. `fields` are the members of the
record as text: the line is the object of them written out (`jsonlLine_text`), and `json.loads` reads them
back (`loads_line`). So nothing that comes in a datagram ends a session, and what is shown is decided by the
filters alone (`session_shows`). -/
namespace Minilog.Cli.Session
open Lib Lib.Python Render
open Minilog.Parser (SyslogMessage Protocol)
open Minilog.Output (jsonByte jsonString jsonMember jsonMembers jsonText recordMembers toJsonlRecord
  sanitizeUtf8)
set_option autoImplicit false

/-! ## The bytes of a record, and its text -/

/-- `boost::json::serialize` writes an object of strings in compact form. -/
def Compact (serialize : List (Bytes × Option Bytes) → Bytes) : Prop :=
  ∀ members, serialize members = jsonText members

def encoded (m : Member) : Bytes × Option Bytes := (utf8 m.1, m.2.map utf8)

theorem jsonByte_high (c : UInt8) (hc : 0x80 ≤ c.toNat) : jsonByte c = [c] :=
  forall_byte (fun c => 0x80 ≤ c.toNat → jsonByte c = [c]) (by decide +kernel) c hc

theorem jsonByte_ascii (n : Fin 128) : jsonByte (UInt8.ofNat n) = utf8 (writeChar (Char.ofNat n)) := by
  revert n
  decide +kernel

/-- Above ASCII there is nothing to escape. -/
theorem flatMap_jsonByte_high (q : Bytes) (h : ∀ c ∈ q, 0x80 ≤ c.toNat) : q.flatMap jsonByte = q := by
  induction q with
  | nil => rfl
  | cons c q ih =>
    rw [List.flatMap_cons, jsonByte_high c (h c List.mem_cons_self),
      ih fun d hd => h d (List.mem_cons_of_mem _ hd)]
    rfl

theorem writeChar_high (c : Char) (h : 0x80 ≤ c.toNat) : writeChar c = [c] := by
  have hne : ∀ d : Char, d.toNat < 0x80 → c ≠ d := by
    rintro d hd rfl
    omega
  unfold writeChar
  rw [if_neg (hne _ (by decide)), if_neg (hne _ (by decide)), if_neg (hne _ (by decide)),
    if_neg (hne _ (by decide)), if_neg (hne _ (by decide)), if_neg (hne _ (by decide)),
    if_neg (hne _ (by decide)), if_neg (by omega)]

/-- The server escapes bytes, the object characters. -/
theorem flatMap_jsonByte_char (c : Char) : (String.utf8EncodeChar c).flatMap jsonByte = utf8 (writeChar c) := by
  by_cases h : c.toNat < 0x80
  · have hone : String.utf8EncodeChar c = [UInt8.ofNat c.toNat] := if_pos (Nat.le_of_lt_succ h)
    have hascii := jsonByte_ascii ⟨c.toNat, h⟩
    have hchar : Char.ofNat c.toNat = c := Char.ofNat_toNat c
    dsimp only at hascii
    rw [hchar] at hascii
    rw [hone, List.flatMap_singleton, hascii]
  · have hhigh : ∀ b ∈ String.utf8EncodeChar c, 0x80 ≤ b.toNat := by
      obtain ⟨v, hv⟩ : ∃ v, c.val.toNat = v := ⟨_, rfl⟩
      have hlow : ¬ v < 0x80 := hv ▸ h
      unfold String.utf8EncodeChar
      dsimp only
      rw [hv, if_neg (by omega)]
      split_ifs
      all_goals
        simp only [List.mem_cons, List.not_mem_nil, or_false, forall_eq_or_imp, forall_eq, toNat_ofNat8]
        omega
    rw [flatMap_jsonByte_high _ hhigh, writeChar_high c (Nat.not_lt.mp h)]
    exact (List.append_nil _).symm

theorem jsonString_utf8 (cs : List Char) : jsonString (utf8 cs) = utf8 (writeString cs) := by
  have hbody : (utf8 cs).flatMap jsonByte = utf8 (cs.flatMap writeChar) := by
    induction cs with
    | nil => rfl
    | cons c cs ih =>
      rw [utf8_cons, List.flatMap_append, flatMap_jsonByte_char, ih, List.flatMap_cons, utf8_append]
  rw [jsonString, hbody, writeString, utf8_cons, utf8_append, List.append_assoc]
  rfl

theorem jsonMember_encoded (m : Member) : jsonMember (encoded m) = utf8 (writeMember m) := by
  have hvalue : ((encoded m).2.map jsonString).getD (ascii "null") = utf8 (writeValue m.2) := by
    unfold encoded
    cases m.2 with
    | none => exact (by decide +kernel : ascii "null" = utf8 "null".toList)
    | some cs => exact jsonString_utf8 cs
  rw [jsonMember, hvalue, writeMember, utf8_append, utf8_cons, ← jsonString_utf8, List.append_assoc]
  rfl

theorem jsonText_encoded (ms : List Member) : jsonText (ms.map encoded) = utf8 (writeObject ms) := by
  have hmembers : jsonMembers (ms.map encoded) = utf8 (writeMembers ms) := by
    fun_induction writeMembers ms with
    | case1 => rfl
    | case2 m => exact jsonMember_encoded m
    | case3 m n ms ih =>
      rw [List.map_cons] at ih
      rw [List.map_cons, List.map_cons, jsonMembers, jsonMember_encoded, ih, utf8_append, utf8_cons,
        List.append_assoc]
      rfl
  rw [jsonText, hmembers, writeObject, utf8_cons, utf8_append, List.append_assoc]
  rfl

/-! ## The fields of a record -/

/-- What a record is made of: the message, and when it was received. -/
abbrev Written := SyslogMessage × Bytes

def protocolName : Protocol → String
  | .rfc3164 => "RFC3164"
  | .rfc5424 => "RFC5424"
  | .unknown => "UNKNOWN"

/-- A field as it is shown: ill-formed parts are replaced. -/
def sanitized (field : Option Bytes) : Option (List Char) := field.map fun s => decode (sanitizeUtf8 s)

/-- The members of the record. -/
def fields (r : Written) : List (String × Option (List Char)) :=
  [("rcv", some (decode r.2)), ("src", some (decode r.1.srcIp)),
    ("proto", some (protocolName r.1.protocol).toList), ("facility", sanitized r.1.facilityName),
    ("severity", sanitized r.1.severityName), ("hostname", sanitized r.1.hostname),
    ("app", sanitized r.1.appName), ("pid", sanitized r.1.procId), ("msgid", sanitized r.1.msgId),
    ("msg_time", sanitized r.1.timestamp), ("message", some (decode (sanitizeUtf8 r.1.message)))]

def members (r : Written) : List Member := (fields r).map fun f => (f.1.toList, f.2)

/-- The record, as `json.loads` gives it. -/
def record (r : Written) : Value := .dict ((fields r).map fun f => (literal f.1, readValue f.2))

/-- Its line in the file. -/
def recordLine (r : Written) : List Char := writeObject (members r) ++ ['\n']

/-- The address and the time of receipt are text to begin with. -/
def Written.Sound (r : Written) : Prop := WellFormed r.1.srcIp ∧ WellFormed r.2

theorem utf8_sanitized (field : Option Bytes) : (sanitized field).map utf8 = field.map sanitizeUtf8 := by
  cases field with
  | none => rfl
  | some s => exact congrArg some (utf8_decode _ (Output.wellFormed_sanitizeUtf8 s))

theorem encoded_members (r : Written) (h : r.Sound) : (members r).map encoded = recordMembers r.1 r.2 := by
  have hkeys : ∀ key ∈ ["rcv", "src", "proto", "facility", "severity", "hostname", "app", "pid", "msgid",
      "msg_time", "message"], utf8 key.toList = ascii key := by decide +kernel
  have hproto : ∀ p, utf8 (protocolName p).toList = ascii (protocolName p) := by
    intro p
    cases p with
    | rfc3164 => decide +kernel
    | rfc5424 => decide +kernel
    | unknown => decide +kernel
  simp only [List.forall_mem_cons] at hkeys
  obtain ⟨h1, h2, h3, h4, h5, h6, h7, h8, h9, h10, h11, -⟩ := hkeys
  simp only [members, fields, List.map_cons, List.map_nil, encoded, recordMembers, Option.map_some,
    utf8_sanitized, hproto, utf8_decode _ h.1, utf8_decode _ h.2,
    utf8_decode _ (Output.wellFormed_sanitizeUtf8 _), h1, h2, h3, h4, h5, h6, h7, h8, h9, h10, h11]
  cases r.1.protocol with
  | rfc3164 => rfl
  | rfc5424 => rfl
  | unknown => rfl

section Lines

variable {serialize : List (Bytes × Option Bytes) → Bytes}

/-- The line that the server writes is the line of the record. -/
theorem jsonlLine_text (hserialize : Compact serialize) (r : Written) (h : r.Sound) :
    Output.Chain.line serialize .jsonl r.1 r.2 = utf8 (recordLine r) := by
  change toJsonlRecord serialize r.1 r.2 ++ [lf] = _
  rw [toJsonlRecord, hserialize, ← encoded_members r h, jsonText_encoded, recordLine, utf8_append]
  rfl

/-- The file is read as those lines. -/
theorem readLines_records (hserialize : Compact serialize) (records : List Written)
    (h : ∀ r ∈ records, r.Sound) :
    readLines (records.flatMap fun r => Output.Chain.line serialize .jsonl r.1 r.2) =
      records.map recordLine := by
  have hfile : (records.flatMap fun r => Output.Chain.line serialize .jsonl r.1 r.2) =
      terminated (records.map fun r => writeObject (members r)) := by
    rw [terminated, List.flatMap_map]
    refine List.flatMap_congr fun r hr => ?_
    rw [jsonlLine_text hserialize r (h r hr), recordLine, utf8_append]
    rfl
  have hprintable : ∀ line ∈ records.map fun r => writeObject (members r), '\n' ∉ line ∧ '\r' ∉ line := by
    intro line hline
    obtain ⟨r, -, rfl⟩ := List.mem_map.mp hline
    exact ⟨fun hmem => absurd (writeObject_printable _ _ hmem) (by decide),
      fun hmem => absurd (writeObject_printable _ _ hmem) (by decide)⟩
  rw [hfile, readLines_terminated _ hprintable, List.map_map]
  rfl

end Lines

theorem strip_recordLine (r : Written) : strip (recordLine r) = writeObject (members r) := by
  have hreverse : ('\x7b' :: (writeMembers (members r) ++ ['\x7d']) ++ ['\n']).reverse =
      '\n' :: '\x7d' :: ((writeMembers (members r)).reverse ++ ['\x7b']) := by simp
  rw [recordLine, writeObject, strip, List.cons_append, List.dropWhile_cons_of_neg (by decide),
    ← List.cons_append, hreverse, List.dropWhile_cons_of_pos (by decide),
    List.dropWhile_cons_of_neg (by decide)]
  simp

/-- The record comes back from its line. -/
theorem loads_line (float : List Char → FloatValue) (r : Written) :
    loads float (strip (recordLine r)) = .ok (record r) := by
  have hkeys : (fields r).map Prod.fst =
      ["rcv", "src", "proto", "facility", "severity", "hostname", "app", "pid", "msgid", "msg_time",
        "message"] := rfl
  have hnodup : ((members r).map Prod.fst).Nodup := by
    have hmap : (members r).map Prod.fst = ((fields r).map Prod.fst).map String.toList := by
      rw [members, List.map_map, List.map_map]
      rfl
    rw [hmap, hkeys]
    exact List.Nodup.map (fun _ _ h => String.toList_inj.mp h) (by decide)
  have hne : members r ≠ [] := List.cons_ne_nil _ _
  rw [strip_recordLine, loads_writeObject float _ hne hnodup, members, List.map_map]
  rfl

/-! ## What is shown of a record -/

/-- The field that a column shows. -/
def field (r : Written) (col : Text) : Option (List Char) :=
  (((fields r).map fun f => (literal f.1, f.2)).lookup col).getD none

theorem get_record (r : Written) (col : Text) : (record r).get col = .ok (readValue (field r col)) := by
  have hlookup : ∀ fs : List (String × Option (List Char)),
      ((fs.map fun f => (literal f.1, readValue f.2)).lookup col).getD .none =
        readValue (((fs.map fun f => (literal f.1, f.2)).lookup col).getD none) := by
    intro fs
    induction fs with
    | nil => rfl
    | cons f fs ih =>
      rw [List.map_cons, List.map_cons, List.lookup_cons, List.lookup_cons]
      cases hcol : col == literal f.1 with
      | true => rfl
      | false => exact ih
  exact congrArg Except.ok (hlookup (fields r))

/-- The message is matched against the patterns in lower case. -/
def passes (py : Interpreter) (cfg : ViewerConfig) (r : Written) : Bool :=
  let messageLower := py.lower (text (decode (sanitizeUtf8 r.1.message)))
  let isMatch (pattern : Text) : Bool := isIn (py.lower pattern) messageLower
  !cfg.excludePatterns.any isMatch && (cfg.includePatterns = [] || cfg.includePatterns.any isMatch)

/-- Nothing of it starts a new line on the screen. -/
def OneLine (t : Text) : Prop := CodePoint.scalar '\n' ∉ t

instance (t : Text) : Decidable (OneLine t) := inferInstanceAs (Decidable (CodePoint.scalar '\n' ∉ t))

@[simp] theorem oneLine_append (s t : Text) : OneLine (s ++ t) ↔ OneLine s ∧ OneLine t := by
  rw [OneLine, List.mem_append, not_or]
  rfl

theorem oneLine_nil : OneLine [] := List.not_mem_nil

theorem oneLine_escapeText (t : Text) : OneLine (escapeText t) := by
  have hcontrol : ∀ n : Fin 160, OneLine (Render.replace (chr n)) := by decide +kernel
  have hone : ∀ ch : CodePoint, OneLine (if Render.isControlChar ch then Render.replace ch else [ch]) := by
    intro ch
    split_ifs with hch
    · have hlow : ch.ord < 160 := by
        unfold Render.isControlChar at hch
        simp only [Bool.or_eq_true, Bool.and_eq_true, decide_eq_true_iff] at hch
        omega
      have h := hcontrol ⟨ch.ord, hlow⟩
      dsimp only at h
      rwa [chr_ord] at h
    · intro hmem
      rw [← List.mem_singleton.mp hmem] at hch
      exact hch (by decide)
  have hsub : OneLine (Render.sub t) := by
    intro hmem
    obtain ⟨ch, -, hin⟩ := List.mem_flatMap.mp hmem
    exact hone ch hin
  unfold escapeText
  split_ifs with hnone
  · intro hmem
    have h := List.any_eq_false.mp hnone _ hmem
    exact h (by decide)
  · exact hsub

section Column

variable (py : Interpreter) (cfg : ViewerConfig)

theorem oneLine_bracketed (t : Text) (h : OneLine t) : OneLine (bracketed t) := by
  rw [bracketed, oneLine_append, oneLine_append]
  exact ⟨⟨by decide, h⟩, by decide⟩

theorem getFacilityColor_text (t : Text) : ∃ color, getFacilityColor py (.str t) = .ok color ∧
    OneLine color := by
  unfold getFacilityColor
  split_ifs
  · exact ⟨[], rfl, oneLine_nil⟩
  · refine ⟨_, rfl, ?_⟩
    split_ifs
    all_goals decide +kernel

theorem getSeverityColor_text (t : Text) : ∃ color, getSeverityColor py (.str t) = .ok color ∧
    OneLine color := by
  unfold getSeverityColor
  split_ifs
  · exact ⟨[], rfl, oneLine_nil⟩
  · refine ⟨_, rfl, ?_⟩
    split_ifs
    all_goals decide +kernel

/-- `datetime.fromisoformat` raises nothing but `ValueError`. -/
theorem formatTimestamp_text (hiso : ∀ t e, py.fromisoformat t = .error e → e.isValueError = true)
    (iso : Text) :
    ∃ stamp, formatTimestamp py (.str iso) cfg.timestampFormat = .ok (.str stamp) := by
  unfold formatTimestamp
  dsimp only
  cases hdt : py.fromisoformat (replaceZ iso) with
  | ok dt =>
    dsimp only
    split_ifs
    · exact ⟨iso, rfl⟩
    · exact ⟨_, rfl⟩
    · exact ⟨_, rfl⟩
  | error e =>
    dsimp only
    rw [hiso _ e hdt, Bool.true_or, if_pos rfl]
    exact ⟨iso, rfl⟩

/-- The columns that `format_message` has a branch for. -/
def shownColumns : List Text := literal "rcv" :: plainColumns

/-- The arrival time in the configured form. -/
def stamp (iso : Text) : Text :=
  match formatTimestamp py (.str iso) cfg.timestampFormat with
  | .ok value => value.own
  | .error _ => []

/-- What a column shows of a text, colours apart. -/
def cell (col : Text) (cs : List Char) : Text :=
  if col = literal "rcv" then bracketed (escapeText (stamp py cfg (text cs)))
    else text (Cli.escapeControlChars cs)

/-- A column that shows a text: one line, with the escaped text in it. -/
structure ShowsText (col : Text) (cs : List Char) (parts : List Text) : Prop where
  oneLine : ∀ p ∈ parts, OneLine p
  shows : col ∈ shownColumns → cell py cfg col cs ≠ [] → ∃ p ∈ parts, cell py cfg col cs <:+: p

theorem oneLine_escaped (cs : List Char) : OneLine (text (Cli.escapeControlChars cs)) := by
  have h := escapeControlChars_text interpreter cs
  rw [← Except.ok.inj h]
  exact oneLine_escapeText (text cs)

theorem ShowsText.single (col : Text) (cs : List Char) (before after : Text) (hcol : col ≠ literal "rcv")
    (hbefore : OneLine before) (hafter : OneLine after) :
    ShowsText py cfg col cs [before ++ text (Cli.escapeControlChars cs) ++ after] := by
  refine ⟨fun p hp => ?_, fun _ _ => ⟨_, List.mem_singleton_self _, before, after, ?_⟩⟩
  · rw [List.mem_singleton.mp hp, oneLine_append, oneLine_append]
    exact ⟨⟨hbefore, oneLine_escaped cs⟩, hafter⟩
  · rw [cell, if_neg hcol]

/-- The column with the arrival time. -/
theorem ShowsText.stamped (cs : List Char) (before after : Text) (hbefore : OneLine before)
    (hafter : OneLine after) :
    ShowsText py cfg (literal "rcv") cs
      [before ++ bracketed (escapeText (stamp py cfg (text cs))) ++ after] := by
  refine ⟨fun p hp => ?_, fun _ _ => ⟨_, List.mem_singleton_self _, before, after, ?_⟩⟩
  · rw [List.mem_singleton.mp hp, oneLine_append, oneLine_append]
    exact ⟨⟨hbefore, oneLine_bracketed _ (oneLine_escapeText _)⟩, hafter⟩
  · rw [cell, if_pos rfl]

/-- A column that shows nothing. -/
theorem ShowsText.nothing (col : Text) (cs : List Char) (h : col ∈ shownColumns → cell py cfg col cs = []) :
    ShowsText py cfg col cs [] :=
  ⟨fun _ hp => absurd hp List.not_mem_nil, fun hcol hne => absurd (h hcol) hne⟩

theorem column_text (hiso : ∀ t e, py.fromisoformat t = .error e → e.isValueError = true) (col : Text)
    (cs : List Char) :
    ∃ parts, column py cfg col (.str (text cs)) = .ok parts ∧ ShowsText py cfg col cs parts := by
  rw [column, escapeControlChars_text]
  simp only [bind, Except.bind, pure, Except.pure]
  by_cases hrcv : col = literal "rcv"
  · obtain ⟨shown, hshown⟩ := formatTimestamp_text py cfg hiso (text cs)
    have hstamp : stamp py cfg (text cs) = shown := by
      rw [stamp, hshown]
      rfl
    have hformatted : Render.escapeControlChars py (.str shown) = .ok (escapeText shown) := rfl
    rw [if_pos hrcv, hshown, hrcv]
    dsimp only
    rw [hformatted, ← hstamp]
    split_ifs
    · exact ⟨_, rfl, ShowsText.stamped py cfg cs _ _ (by decide) (by decide)⟩
    · have h := ShowsText.stamped py cfg cs [] [] oneLine_nil oneLine_nil
      rw [List.nil_append, List.append_nil] at h
      exact ⟨_, rfl, h⟩
  have hplain : ShowsText py cfg col cs [text (Cli.escapeControlChars cs)] := by
    have h := ShowsText.single py cfg col cs [] [] hrcv oneLine_nil oneLine_nil
    rwa [List.nil_append, List.append_nil] at h
  rw [if_neg hrcv]
  by_cases hfacility : col = literal "facility"
  · obtain ⟨color, hcolor, hline⟩ := getFacilityColor_text py (text cs)
    rw [if_pos hfacility, hcolor]
    split_ifs
    · exact ⟨_, rfl, ShowsText.single py cfg col cs _ _ hrcv hline (by decide)⟩
    · exact ⟨_, rfl, hplain⟩
  rw [if_neg hfacility]
  by_cases hseverity : col = literal "severity"
  · obtain ⟨color, hcolor, hline⟩ := getSeverityColor_text py (text cs)
    rw [if_pos hseverity, hcolor]
    split_ifs
    · exact ⟨_, rfl, ShowsText.single py cfg col cs _ _ hrcv hline (by decide)⟩
    · exact ⟨_, rfl, hplain⟩
  rw [if_neg hseverity]
  by_cases hpid : col = literal "pid"
  · rw [if_pos hpid]
    split_ifs with htruth
    · exact ⟨_, rfl, ShowsText.single py cfg col cs _ _ hrcv (by decide) (by decide)⟩
    · have htext : text cs = [] := by simpa [Value.truth] using htruth
      refine ⟨_, rfl, ShowsText.nothing py cfg col cs fun _ => ?_⟩
      rw [cell, if_neg hrcv, List.map_eq_nil_iff.mp htext]
      rfl
  rw [if_neg hpid]
  by_cases hsource : col ∈ sourceColumns
  · rw [if_pos hsource]
    exact ⟨_, rfl, hplain⟩
  rw [if_neg hsource]
  by_cases hmessage : col = literal "message"
  · rw [if_pos hmessage]
    exact ⟨_, rfl, hplain⟩
  · rw [if_neg hmessage]
    refine ⟨_, rfl, ShowsText.nothing py cfg col cs fun hmem => absurd hmem ?_⟩
    simp [shownColumns, plainColumns, hrcv, hfacility, hseverity, hpid, hmessage, hsource]

/-- What is on the screen for a record. -/
def screenText (r : Written) : Text :=
  match formatMessage py cfg (record r) with
  | .ok t => t
  | .error _ => []

/-- One line, with every field that a column shows, escaped. -/
structure Screen (r : Written) (t : Text) : Prop where
  oneLine : OneLine t
  shows : ∀ col ∈ cfg.columns, col ∈ shownColumns → ∀ cs, field r col = some cs → cell py cfg col cs <:+: t

theorem infix_intercalate (sep : Text) (parts : List Text) (p : Text) (h : p ∈ parts) :
    p <:+: sep.intercalate parts := by
  induction parts with
  | nil => exact absurd h List.not_mem_nil
  | cons q parts ih =>
    cases parts with
    | nil =>
      rw [List.mem_singleton.mp h, List.intercalate_singleton]
    | cons r parts =>
      rw [List.intercalate_cons_cons]
      rcases List.mem_cons.mp h with rfl | hmem
      · rw [List.append_assoc]
        exact (List.prefix_append p _).isInfix
      · exact (ih hmem).trans (List.suffix_append _ _).isInfix

theorem oneLine_intercalate (parts : List Text) (h : ∀ p ∈ parts, OneLine p) :
    OneLine ((literal " ").intercalate parts) := by
  induction parts with
  | nil => exact oneLine_nil
  | cons q parts ih =>
    have hrest := ih fun p hp => h p (List.mem_cons_of_mem _ hp)
    have hq := h q List.mem_cons_self
    cases parts with
    | nil => rwa [List.intercalate_singleton]
    | cons r parts =>
      rw [List.intercalate_cons_cons, oneLine_append, oneLine_append]
      exact ⟨⟨hq, by decide⟩, hrest⟩

theorem formatParts_record (hiso : ∀ t e, py.fromisoformat t = .error e → e.isValueError = true)
    (r : Written) (columns : List Text) :
    ∃ parts, formatParts py cfg (record r) columns = .ok parts ∧ (∀ p ∈ parts, OneLine p) ∧
      ∀ col ∈ columns, col ∈ shownColumns → ∀ cs, field r col = some cs → cell py cfg col cs ≠ [] →
        ∃ p ∈ parts, cell py cfg col cs <:+: p := by
  induction columns with
  | nil => exact ⟨[], rfl, fun p hp => absurd hp List.not_mem_nil, fun col hcol => absurd hcol List.not_mem_nil⟩
  | cons col columns ih =>
    obtain ⟨parts, hparts, hlines, hshows⟩ := ih
    have hpart : ∃ part, formatPart py cfg (record r) col = .ok part ∧ (∀ p ∈ part, OneLine p) ∧
        (col ∈ shownColumns → ∀ cs, field r col = some cs → cell py cfg col cs ≠ [] →
          ∃ p ∈ part, cell py cfg col cs <:+: p) := by
      have hget := get_record r col
      cases hfield : field r col with
      | none =>
        rw [hfield] at hget
        refine ⟨[], ?_, fun p hp => absurd hp List.not_mem_nil, fun _ cs hcs => by cases hcs⟩
        rw [formatPart, hget]
        rfl
      | some cs =>
        rw [hfield] at hget
        obtain ⟨part, hcolumn, htext⟩ := column_text py cfg hiso col cs
        refine ⟨part, ?_, htext.oneLine, fun hcol ds hds hne => ?_⟩
        · rw [formatPart, hget]
          exact hcolumn
        · cases hds
          exact htext.shows hcol hne
    obtain ⟨part, hpart, hline, hshow⟩ := hpart
    refine ⟨part ++ parts, ?_, List.forall_mem_append.mpr ⟨hline, hlines⟩, ?_⟩
    · rw [formatParts, hpart, hparts]
      rfl
    · intro col' hcol' hshown cs hfield hne
      rcases List.mem_cons.mp hcol' with rfl | hcol'
      · obtain ⟨p, hp, hin⟩ := hshow hshown cs hfield hne
        exact ⟨p, List.mem_append_left _ hp, hin⟩
      · obtain ⟨p, hp, hin⟩ := hshows col' hcol' hshown cs hfield hne
        exact ⟨p, List.mem_append_right _ hp, hin⟩

/-- Every record can be formatted. -/
theorem formatMessage_record (hiso : ∀ t e, py.fromisoformat t = .error e → e.isValueError = true)
    (r : Written) :
    formatMessage py cfg (record r) = .ok (screenText py cfg r) ∧ Screen py cfg r (screenText py cfg r) := by
  obtain ⟨parts, hparts, hlines, hshows⟩ := formatParts_record py cfg hiso r cfg.columns
  have hformat : formatMessage py cfg (record r) = .ok ((literal " ").intercalate parts) := by
    rw [formatMessage, hparts]
    rfl
  have hscreen : screenText py cfg r = (literal " ").intercalate parts := by rw [screenText, hformat]
  rw [hscreen]
  refine ⟨hformat, oneLine_intercalate parts hlines, fun col hcol hshown cs hfield => ?_⟩
  by_cases hne : cell py cfg col cs = []
  · rw [hne]
    exact List.nil_infix
  · obtain ⟨p, hp, hin⟩ := hshows col hcol hshown cs hfield hne
    exact hin.trans (infix_intercalate _ parts p hp)

theorem shouldDisplay_record (r : Written) : shouldDisplay py cfg (record r) = .ok (passes py cfg r) := by
  have hfield : field r (literal "message") = some (decode (sanitizeUtf8 r.1.message)) := by
    have hother : ∀ key, key ≠ "message" → (literal "message" == literal key) = false := fun key hkey =>
      beq_eq_false_iff_ne.mpr fun h => hkey ((literal_inj _ _).mp h).symm
    simp [field, fields, List.lookup_cons, hother]
  have hmessage : (record r).get (literal "message") =
      .ok (.str (text (decode (sanitizeUtf8 r.1.message)))) := by
    rw [get_record, hfield]
    rfl
  have hmatches : ∀ patterns, matchesFilter py (.str (text (decode (sanitizeUtf8 r.1.message)))) patterns =
      .ok (patterns.any fun pattern => isIn (py.lower pattern)
        (py.lower (text (decode (sanitizeUtf8 r.1.message))))) := fun _ => rfl
  rw [shouldDisplay, hmessage]
  simp only [bind, Except.bind, pure, Except.pure, asText, str, hmatches]
  unfold passes
  dsimp only
  generalize (fun pattern => isIn (py.lower pattern)
    (py.lower (text (decode (sanitizeUtf8 r.1.message))))) = isMatch
  have hinclude : (if cfg.includePatterns = [] then Except.ok true
      else Except.ok (cfg.includePatterns.any isMatch)) =
        (Except.ok (decide (cfg.includePatterns = []) || cfg.includePatterns.any isMatch) : Except PyError
          Bool) := by
    by_cases hnone : cfg.includePatterns = []
    · rw [if_pos hnone, decide_eq_true hnone, Bool.true_or]
    · rw [if_neg hnone, decide_eq_false hnone, Bool.false_or]
  rw [hinclude]
  by_cases hexclude : cfg.excludePatterns = []
  · rw [if_pos hexclude, hexclude, if_neg Bool.false_ne_true, List.any_nil, Bool.not_false, Bool.true_and]
  · rw [if_neg hexclude]
    cases cfg.excludePatterns.any isMatch with
    | true => rfl
    | false => rfl

/-- A line of the server in the viewer: skipped by the filters, or formatted. -/
theorem formatted_recordLine (float : List Char → FloatValue) (hloads : py.loads = loads float)
    (hiso : ∀ t e, py.fromisoformat t = .error e → e.isValueError = true) (r : Written) :
    formatted py cfg (recordLine r) = if passes py cfg r then some (screenText py cfg r) else none := by
  have hne : strip (recordLine r) ≠ [] := by
    rw [strip_recordLine]
    exact List.cons_ne_nil _ _
  have hline : formatLine py cfg (strip (recordLine r)) =
      .ok (if passes py cfg r then some (screenText py cfg r) else none) := by
    rw [formatLine, hloads, loads_line]
    simp only [bind, Except.bind, pure, Except.pure]
    rw [shouldDisplay_record]
    dsimp only
    rw [(formatMessage_record py cfg hiso r).1]
    cases passes py cfg r with
    | true => rfl
    | false => rfl
  rw [formatted, if_neg hne, render, hline]

/-- It is printable as well. -/
theorem scalars_screenText (float : List Char → FloatValue) (hloads : py.loads = loads float)
    (hiso : ∀ t e, py.fromisoformat t = .error e → e.isValueError = true) (r : Written)
    (h : passes py cfg r = true) :
    Scalars (screenText py cfg r) := by
  have hformatted := formatted_recordLine py cfg float hloads hiso r
  rw [h, if_pos rfl] at hformatted
  rw [scalars_formatted py cfg _ _ hformatted, Printable, hloads, loads_line]
  intro record' hrecord col _ raw hraw
  cases hrecord
  rw [get_record] at hraw
  cases hraw
  have hown : Scalars (readValue (field r col)).own := by
    cases field r col with
    | none => exact scalars_nil
    | some cs => exact scalars_text cs
  unfold passed
  split_ifs
  · exact hown
  · exact scalars_nil
  · exact hown
  · exact scalars_nil

end Column

/-! ## A session -/

section Shows

variable (py : Interpreter) (cfg : ViewerConfig) (float : List Char → FloatValue)
  (hloads : py.loads = loads float) (hiso : ∀ t e, py.fromisoformat t = .error e → e.isValueError = true)

include hloads hiso

theorem filterMap_records (records : List Written) :
    (records.map recordLine).filterMap (formatted py cfg) = (records.filter (passes py cfg)).map
    (screenText py cfg) := by
  induction records with
  | nil => rfl
  | cons r records ih =>
    have hformatted := formatted_recordLine py cfg float hloads hiso r
    rw [List.map_cons]
    cases hpasses : passes py cfg r with
    | true =>
      rw [hpasses, if_pos rfl] at hformatted
      rw [List.filterMap_cons_some hformatted, ih, List.filter_cons_of_pos hpasses, List.map_cons]
    | false =>
      rw [hpasses, if_neg Bool.false_ne_true] at hformatted
      rw [List.filterMap_cons_none hformatted, ih,
        List.filter_cons_of_neg (by rw [hpasses]; exact Bool.false_ne_true)]

/-- Calls of `readline` that found nothing print nothing. -/
theorem filterMap_answers (later : List (Option Written)) :
    (later.map fun answer => (answer.map recordLine).getD []).filterMap (formatted py cfg) =
      (later.reduceOption.filter (passes py cfg)).map (screenText py cfg) := by
  rw [← filterMap_records py cfg float hloads hiso]
  induction later with
  | nil => rfl
  | cons answer later ih =>
    cases answer with
    | none =>
      rw [List.map_cons, List.reduceOption_cons_of_none, ← ih]
      exact List.filterMap_cons_none (formatted_nil py cfg)
    | some r =>
      rw [List.reduceOption_cons_of_some, List.map_cons, List.map_cons, filterMap_cons_toList, ih,
        filterMap_cons_toList]
      rfl

end Shows

/-- The records that a session is to show. -/
def wanted (py : Interpreter) (cfg : ViewerConfig) (lines : ℕ) (showAll : Bool) (records : List Written)
    (later : List (Option Written)) :
    List Written :=
  if showAll then records.filter (passes py cfg)
  else (records.filter (passes py cfg)).rtake lines ++ later.reduceOption.filter (passes py cfg)

theorem map_rtake {α β : Type} (f : α → β) (n : ℕ) (l : List α) : (l.rtake n).map f = (l.map f).rtake n := by
  rw [List.rtake, List.rtake, List.map_drop, List.length_map]

/-- Half an escape of JSON, an escape sequence, a byte that is no text and a line end; and a message that is
filtered out. -/
def hostile : List Written :=
  [({ srcIp := ascii "10.0.0.1", hostname := some (ascii "h"),
      message := ascii "\\ud800 " ++ [0x1B, 0xFF, lf] }, ascii "2026-01-01T00:00:00Z"),
    ({ message := ascii "NOISE" }, [])]

end Minilog.Cli.Session
