import Minilog.Cli.Escapes
import Minilog.Lib.Python

/-! A line of the log as the cli-viewer shows it: `render` and what it calls in `minilog-cli-viewer.py`.

What a line decodes to may be anything, so every function may raise; `render` answers `none` then. Whatever
passes through it is escaped against control characters only, so a surrogate in a string of the record is one
in the text that is printed (`render_scalars`). -/
namespace Minilog.Cli.Render
open Lib Lib.Python
set_option autoImplicit false

structure ViewerConfig where
  columns : List Text := ["rcv", "facility", "severity", "hostname", "app", "pid", "message"].map literal
  timestampFormat : Text := literal "short"
  useColors : Bool := true
  excludePatterns : List Text := []
  includePatterns : List Text := []

namespace Colors

def reset : Text := literal "\x1b[0m"
def bold : Text := literal "\x1b[1m"

def kern : Text := literal "\x1b[95m"
def user : Text := literal "\x1b[94m"
def mail : Text := literal "\x1b[96m"
def daemon : Text := literal "\x1b[92m"
def auth : Text := literal "\x1b[93m"
def syslog : Text := literal "\x1b[97m"
def local_ : Text := literal "\x1b[90m"

def emerg : Text := literal "\x1b[41m\x1b[97m"
def alert : Text := literal "\x1b[91m\x1b[1m"
def crit : Text := literal "\x1b[91m"
def err : Text := literal "\x1b[31m"
def warning : Text := literal "\x1b[33m"
def notice : Text := literal "\x1b[36m"
def info : Text := literal "\x1b[37m"
def debug : Text := literal "\x1b[90m"

end Colors

/-! ## Escaping -/

/-- `_CONTROL_CHARS`. -/
def isControlChar (ch : CodePoint) : Bool :=
  ch.ord ≤ 0x08 || (0x0A ≤ ch.ord && ch.ord ≤ 0x1F) || ch.ord = 0x7F || (0x80 ≤ ch.ord && ch.ord ≤ 0x9F)

def replace (ch : CodePoint) : Text :=
  if ch = .scalar '\n' then literal "\\n"
  else if ch = .scalar '\r' then literal "\\r"
  else if 0x80 ≤ ch.ord then text ('\\' :: 'u' :: hexUpper 4 ch.ord)
  else text ('\\' :: 'x' :: hexUpper 2 ch.ord)

/-- `_CONTROL_CHARS.sub(replace, text)`. -/
def sub (t : Text) : Text := t.flatMap fun ch => if isControlChar ch then replace ch else [ch]

section Viewer

variable (py : Interpreter) (cfg : ViewerConfig)

def escapeText (t : Text) : Text := if t.any isControlChar = false then t else sub t

def escapeControlChars (value : Value) : Except PyError Text := do
  let t ← str py value
  return escapeText t

/-- `_as_text`. -/
def asText : Value → Except PyError Text
  | .none => .ok []
  | value => str py value

/-! ## Formatting -/

/-- `s.replace("Z", "+00:00")`. -/
def replaceZ (s : Text) : Text := s.flatMap fun ch => if ch = .scalar 'Z' then literal "+00:00" else [ch]

def twoDigits (n : ℕ) : Text := text (List.replicate (2 - (Nat.toDigits 10 n).length) '0' ++ Nat.toDigits 10 n)

/-- `dt.strftime("%H:%M:%S")`. -/
def clock (dt : Datetime) : Text :=
  twoDigits dt.hour ++ literal ":" ++ twoDigits dt.minute ++ literal ":" ++ twoDigits dt.second

/-- Only a string has the method `replace`; the exceptions caught give the value back. -/
def formatTimestamp (isoTimestamp : Value) (formatType : Text) : Except PyError Value :=
  match isoTimestamp with
  | .str iso =>
    match py.fromisoformat (replaceZ iso) with
    | .ok dt =>
      if formatType = literal "iso" then .ok isoTimestamp
      else if formatType = literal "time" then .ok (.str (clock dt))
      else .ok (.str (twoDigits dt.month ++ literal "-" ++ twoDigits dt.day ++ literal " " ++ clock dt))
    | .error e => if e.isValueError || e.isAttributeError then .ok isoTimestamp else .error e
  | _ => .ok isoTimestamp

def getFacilityColor (facility : Value) : Except PyError Text := do
  if facility.truth = false then return []
  else
    let facilityLower := py.lower (← asText py facility)
    return if facilityLower ∈ [literal "kern", literal "kernel"] then Colors.kern
      else if facilityLower = literal "user" then Colors.user
      else if facilityLower = literal "mail" then Colors.mail
      else if facilityLower = literal "daemon" then Colors.daemon
      else if facilityLower ∈ [literal "auth", literal "authpriv", literal "security"] then Colors.auth
      else if facilityLower = literal "syslog" then Colors.syslog
      else if (literal "local").isPrefixOf facilityLower then Colors.local_
      else []

def getSeverityColor (severity : Value) : Except PyError Text := do
  if severity.truth = false then return []
  else
    let severityUpper := py.upper (← asText py severity)
    return if severityUpper = literal "EMERG" then Colors.emerg
      else if severityUpper = literal "ALERT" then Colors.alert
      else if severityUpper ∈ [literal "CRIT", literal "CRITICAL"] then Colors.crit
      else if severityUpper ∈ [literal "ERR", literal "ERROR"] then Colors.err
      else if severityUpper ∈ [literal "WARNING", literal "WARN"] then Colors.warning
      else if severityUpper = literal "NOTICE" then Colors.notice
      else if severityUpper = literal "INFO" then Colors.info
      else if severityUpper = literal "DEBUG" then Colors.debug
      else []

def bracketed (t : Text) : Text := literal "[" ++ t ++ literal "]"

/-- The columns of one branch of `format_message`. -/
def sourceColumns : List Text :=
  [literal "src", literal "proto", literal "hostname", literal "app", literal "msgid"]

/-- What a column adds to `parts`. -/
def column (col : Text) (raw : Value) : Except PyError (List Text) := do
  let value ← escapeControlChars py raw
  if col = literal "rcv" then
    let stamp ← formatTimestamp py raw cfg.timestampFormat
    let formatted ← escapeControlChars py stamp
    return [if cfg.useColors then Colors.bold ++ bracketed formatted ++ Colors.reset else bracketed formatted]
  else if col = literal "facility" then
    if cfg.useColors then
      let color ← getFacilityColor py raw
      return [color ++ value ++ Colors.reset]
    else return [value]
  else if col = literal "severity" then
    if cfg.useColors then
      let color ← getSeverityColor py raw
      return [color ++ value ++ Colors.reset]
    else return [value]
  else if col = literal "pid" then
    return if raw.truth then [bracketed value] else []
  else if col ∈ sourceColumns then return [value]
  else if col = literal "message" then return [value]
  else return []

/-- One round of the loop of `format_message`. -/
def formatPart (record : Value) (col : Text) : Except PyError (List Text) := do
  let raw ← record.get col
  if raw.isNone then return [] else column py cfg col raw

def formatParts (record : Value) : List Text → Except PyError (List Text)
  | [] => return []
  | col :: columns => do
    let part ← formatPart py cfg record col
    let parts ← formatParts record columns
    return part ++ parts

def formatMessage (record : Value) : Except PyError Text := do
  let parts ← formatParts py cfg record cfg.columns
  return (literal " ").intercalate parts

/-! ## Filters -/

def matchesFilter (messageText : Value) (patterns : List Text) : Except PyError Bool := do
  let messageLower := py.lower (← asText py messageText)
  return patterns.any fun pattern => isIn (py.lower pattern) messageLower

def shouldDisplay (record : Value) : Except PyError Bool := do
  let raw ← record.get (literal "message")
  let message ← asText py raw
  let excluded ← if cfg.excludePatterns = [] then pure false
      else matchesFilter py (.str message) cfg.excludePatterns
  if excluded then return false
  else if cfg.includePatterns = [] then return true
  else matchesFilter py (.str message) cfg.includePatterns

/-! ## `render` -/

/-- Inside the `try`. -/
def formatLine (line : List Char) : Except PyError (Option Text) := do
  let record ← py.loads line
  let displayed ← shouldDisplay py cfg record
  if displayed = false then return none
  else
    let formatted ← formatMessage py cfg record
    return some formatted

def render (line : List Char) : Option Text :=
  match formatLine py cfg line with
  | .ok formatted => formatted
  | .error _ => none

/-! ## What reaches the screen -/

/-- The escape of a control character is ASCII, and a surrogate is none. -/
theorem scalars_replaced (ch : CodePoint) : Scalars (if isControlChar ch then replace ch else [ch]) ↔
    ch.isSurrogate = false := by
  cases ch with
  | scalar c =>
    refine iff_of_true ?_ rfl
    unfold replace
    split_ifs
    · exact scalars_literal _
    · exact scalars_literal _
    · exact scalars_text _
    · exact scalars_text _
    · exact (scalars_cons _ _).mpr ⟨rfl, scalars_nil⟩
  | surrogate unit =>
    have hcontrol : isControlChar (.surrogate unit) = false := by
      unfold isControlChar CodePoint.ord
      simp only [Bool.or_eq_false_iff, Bool.and_eq_false_iff, decide_eq_false_iff_not]
      omega
    rw [hcontrol, if_neg Bool.false_ne_true]
    exact ⟨fun h => ((scalars_cons _ _).mp h).1, fun h => by cases h⟩

theorem scalars_sub (t : Text) : Scalars (sub t) ↔ Scalars t := by
  rw [sub, scalars_flatMap]
  exact forall₂_congr fun ch _ => scalars_replaced ch

theorem replace_scalar (ch : Char) : replace (.scalar ch) = text (Cli.replace ch) := by
  unfold replace Cli.replace
  rw [apply_ite text, apply_ite text, apply_ite text]
  simp only [CodePoint.scalar.injEq, CodePoint.ord]
  rfl

/-- On scalar values it is the function that agrees with the server. -/
theorem escapeControlChars_text (cs : List Char) :
    escapeControlChars py (.str (text cs)) = .ok (text (Cli.escapeControlChars cs)) := by
  have hsub : sub (text cs) = text (Cli.sub cs) := by
    induction cs with
    | nil => rfl
    | cons ch cs ih =>
      have hone : (if isControlChar (.scalar ch) then replace (.scalar ch) else [.scalar ch]) =
          text (if Cli.isControlChar ch then Cli.replace ch else [ch]) := by
        rw [replace_scalar, apply_ite text]
        rfl
      unfold sub at ih ⊢
      rw [text_cons, List.flatMap_cons, ih, hone, sub_cons, text_append]
  have hany : (text cs).any isControlChar = cs.any Cli.isControlChar := List.any_map
  change Except.ok (escapeText (text cs)) = _
  rw [escapeText, hany, hsub, Cli.escapeControlChars, apply_ite text]

theorem scalars_escapeText (t : Text) : Scalars (escapeText t) ↔ Scalars t := by
  unfold escapeText
  split_ifs
  · rfl
  · exact scalars_sub t

theorem scalars_escapeControlChars (value : Value) (t : Text) (h : escapeControlChars py value = .ok t) :
    Scalars t ↔ Scalars value.own := by
  obtain ⟨s, hs, ht⟩ := bind_eq_ok _ _ _ h
  cases ht
  rw [← scalars_str py value s hs, scalars_escapeText]

/-- A timestamp that is shown as it came. -/
def keepsTimestamp (iso : Text) : Bool :=
  cfg.timestampFormat = literal "iso" || !(py.fromisoformat (replaceZ iso)).isOk

/-- The columns that show a string as it came. -/
def plainColumns : List Text :=
  [literal "facility", literal "severity", literal "pid", literal "message"] ++ sourceColumns

/-- The string that comes through a column, but for its control characters. -/
def passed (col : Text) (raw : Value) : Text :=
  if col = literal "rcv" then if keepsTimestamp py cfg raw.own then raw.own else []
  else if col ∈ plainColumns then raw.own
  else []

theorem scalars_clock (dt : Datetime) : Scalars (clock dt) := by
  simp [clock, twoDigits]

theorem scalars_formatTimestamp (raw stamp : Value)
    (h : formatTimestamp py raw cfg.timestampFormat = .ok stamp) :
    Scalars stamp.own ↔ Scalars (if keepsTimestamp py cfg raw.own then raw.own else []) := by
  cases raw with
  | str iso =>
    unfold formatTimestamp at h
    dsimp only at h
    unfold keepsTimestamp Value.own
    dsimp only
    cases hiso : py.fromisoformat (replaceZ iso) with
    | ok dt =>
      rw [hiso] at h
      dsimp only at h
      by_cases hkept : cfg.timestampFormat = literal "iso"
      · rw [if_pos hkept] at h
        cases h
        rw [decide_eq_true hkept]
        rfl
      · rw [if_neg hkept] at h
        rw [decide_eq_false hkept]
        refine iff_of_true ?_ scalars_nil
        split_ifs at h
        · cases h
          exact scalars_clock dt
        · cases h
          simp [twoDigits, scalars_clock]
    | error e =>
      rw [hiso] at h
      dsimp only at h
      split_ifs at h
      cases h
      rw [Except.isOk, Except.toBool, Bool.not_false, Bool.or_true]
      rfl
  | none | bool | int | float | list | dict =>
    cases h
    unfold Value.own
    rw [ite_self]

theorem scalars_getFacilityColor (facility : Value) (color : Text)
    (h : getFacilityColor py facility = .ok color) : Scalars color := by
  unfold getFacilityColor at h
  split_ifs at h
  · cases h
    exact scalars_nil
  · obtain ⟨t, -, hcolor⟩ := bind_eq_ok _ _ _ h
    cases hcolor
    split_ifs
    all_goals first | exact scalars_literal _ | exact scalars_nil

theorem scalars_getSeverityColor (severity : Value) (color : Text)
    (h : getSeverityColor py severity = .ok color) : Scalars color := by
  unfold getSeverityColor at h
  split_ifs at h
  · cases h
    exact scalars_nil
  · obtain ⟨t, -, hcolor⟩ := bind_eq_ok _ _ _ h
    cases hcolor
    split_ifs
    all_goals first | exact scalars_literal _ | exact scalars_nil

theorem scalars_bracketed (t : Text) : Scalars (bracketed t) ↔ Scalars t := by
  simp [bracketed]

/-- A coloured column: the colour is ASCII. -/
theorem scalars_coloured (color value : Text) (h : Scalars color) :
    Scalars (color ++ value ++ Colors.reset) ↔ Scalars value := by
  rw [scalars_append, scalars_append, Colors.reset]
  exact ⟨fun hall => hall.1.2, fun hvalue => ⟨⟨h, hvalue⟩, scalars_literal _⟩⟩

theorem passed_plain (col : Text) (raw : Value) (hrcv : col ≠ literal "rcv") (h : col ∈ plainColumns) :
    passed py cfg col raw = raw.own := by
  rw [passed, if_neg hrcv, if_pos h]

/-- A value that counts as false is the empty string, or none. -/
theorem scalars_own_falsy (raw : Value) (h : raw.truth = false) : Scalars raw.own := by
  cases raw with
  | str t =>
    have hnil : t = [] := by simpa [Value.truth] using h
    rw [hnil]
    exact scalars_nil
  | none | bool | int | float | list | dict => exact scalars_nil

/-- What a column adds can be printed if the string that comes through it can. -/
theorem scalars_column (col : Text) (raw : Value) (parts : List Text) (h : column py cfg col raw = .ok parts) :
    (∀ p ∈ parts, Scalars p) ↔ Scalars (passed py cfg col raw) := by
  obtain ⟨value, hvalue, h⟩ := bind_eq_ok _ _ _ h
  have hescaped := scalars_escapeControlChars py raw value hvalue
  by_cases hrcv : col = literal "rcv"
  · rw [if_pos hrcv] at h
    obtain ⟨stamp, hstamp, h⟩ := bind_eq_ok _ _ _ h
    obtain ⟨formatted, hformatted, h⟩ := bind_eq_ok _ _ _ h
    cases h
    rw [List.forall_mem_singleton, passed, if_pos hrcv, ← scalars_formatTimestamp py cfg raw stamp hstamp,
      ← scalars_escapeControlChars py stamp formatted hformatted]
    split_ifs
    · rw [scalars_coloured Colors.bold _ (scalars_literal _), scalars_bracketed]
    · rw [scalars_bracketed]
  rw [if_neg hrcv] at h
  by_cases hfacility : col = literal "facility"
  · rw [if_pos hfacility] at h
    rw [passed_plain py cfg col raw hrcv (by simp [plainColumns, hfacility]), ← hescaped]
    split_ifs at h
    · obtain ⟨color, hcolor, h⟩ := bind_eq_ok _ _ _ h
      cases h
      rw [List.forall_mem_singleton, scalars_coloured _ _ (scalars_getFacilityColor py raw color hcolor)]
    · cases h
      rw [List.forall_mem_singleton]
  rw [if_neg hfacility] at h
  by_cases hseverity : col = literal "severity"
  · rw [if_pos hseverity] at h
    rw [passed_plain py cfg col raw hrcv (by simp [plainColumns, hseverity]), ← hescaped]
    split_ifs at h
    · obtain ⟨color, hcolor, h⟩ := bind_eq_ok _ _ _ h
      cases h
      rw [List.forall_mem_singleton, scalars_coloured _ _ (scalars_getSeverityColor py raw color hcolor)]
    · cases h
      rw [List.forall_mem_singleton]
  rw [if_neg hseverity] at h
  by_cases hpid : col = literal "pid"
  · rw [if_pos hpid] at h
    rw [passed_plain py cfg col raw hrcv (by simp [plainColumns, hpid])]
    cases h
    split_ifs with htruth
    · rw [List.forall_mem_singleton, scalars_bracketed, hescaped]
    · exact iff_of_true (fun p hp => by cases hp) (scalars_own_falsy raw (by simpa using htruth))
  rw [if_neg hpid] at h
  by_cases hsource : col ∈ sourceColumns
  · rw [if_pos hsource] at h
    cases h
    rw [List.forall_mem_singleton, hescaped, passed_plain py cfg col raw hrcv (List.mem_append_right _ hsource)]
  rw [if_neg hsource] at h
  by_cases hmessage : col = literal "message"
  · rw [if_pos hmessage] at h
    cases h
    rw [List.forall_mem_singleton, hescaped,
      passed_plain py cfg col raw hrcv (by simp [plainColumns, hmessage])]
  · rw [if_neg hmessage] at h
    cases h
    have hnone : col ∉ plainColumns := by
      intro hmem
      rcases List.mem_append.mp hmem with hmem | hmem
      · simp only [List.mem_cons, List.not_mem_nil, or_false] at hmem
        rcases hmem with heq | heq | heq | heq
        · exact hfacility heq
        · exact hseverity heq
        · exact hpid heq
        · exact hmessage heq
      · exact hsource hmem
    rw [passed, if_neg hrcv, if_neg hnone]
    exact iff_of_true (fun p hp => by cases hp) scalars_nil

theorem scalars_passed_none (col : Text) (raw : Value) (h : raw.isNone = true) :
    Scalars (passed py cfg col raw) := by
  have hown : raw.own = [] := by
    cases raw with
    | none => rfl
    | bool | int | float | str | list | dict => cases h
  unfold passed
  rw [hown, ite_self, ite_self, ite_self]
  exact scalars_nil

theorem scalars_formatPart (record : Value) (col : Text) (part : List Text)
    (h : formatPart py cfg record col = .ok part) :
    (∀ p ∈ part, Scalars p) ↔ ∀ raw, record.get col = .ok raw → Scalars (passed py cfg col raw) := by
  obtain ⟨raw, hraw, hpart⟩ := bind_eq_ok _ _ _ h
  have hget : (∀ other, record.get col = .ok other → Scalars (passed py cfg col other)) ↔
      Scalars (passed py cfg col raw) := by
    rw [hraw]
    exact ⟨fun hall => hall raw rfl, fun hone other hother => by cases hother; exact hone⟩
  rw [hget]
  cases hnone : raw.isNone with
  | true =>
    rw [hnone, if_pos rfl] at hpart
    cases hpart
    exact iff_of_true (fun p hp => by cases hp) (scalars_passed_none py cfg col raw hnone)
  | false =>
    rw [hnone, if_neg Bool.false_ne_true] at hpart
    exact scalars_column py cfg col raw part hpart

theorem scalars_formatParts (record : Value) (columns parts : List Text)
    (h : formatParts py cfg record columns = .ok parts) :
    (∀ p ∈ parts, Scalars p) ↔ ∀ col ∈ columns, ∀ raw, record.get col = .ok raw →
    Scalars (passed py cfg col raw) := by
  induction columns generalizing parts with
  | nil =>
    cases h
    exact iff_of_true (fun p hp => by cases hp) (fun col hcol => by cases hcol)
  | cons col columns ih =>
    obtain ⟨part, hpart, h⟩ := bind_eq_ok _ _ _ h
    obtain ⟨rest, hrest, h⟩ := bind_eq_ok _ _ _ h
    cases h
    rw [List.forall_mem_append, scalars_formatPart py cfg record col part hpart, ih rest hrest,
      List.forall_mem_cons]

/-- No string that comes through a column of this line holds a surrogate. -/
def Printable (line : List Char) : Prop :=
  ∀ record, py.loads line = .ok record → ∀ col ∈ cfg.columns, ∀ raw, record.get col = .ok raw →
    Scalars (passed py cfg col raw)

/-- What is shown of a line can be printed if the line is printable, and only then. -/
theorem render_scalars (line : List Char) (formatted : Text) (h : render py cfg line = some formatted) :
    Scalars formatted ↔ Printable py cfg line := by
  have hok : formatLine py cfg line = .ok (some formatted) := by
    unfold render at h
    cases hline : formatLine py cfg line with
    | ok shown =>
      rw [hline] at h
      exact congrArg _ h
    | error e =>
      rw [hline] at h
      cases h
  obtain ⟨record, hrecord, hok⟩ := bind_eq_ok _ _ _ hok
  obtain ⟨displayed, -, hok⟩ := bind_eq_ok _ _ _ hok
  split_ifs at hok
  · cases hok
  · obtain ⟨message, hmessage, hok⟩ := bind_eq_ok _ _ _ hok
    cases hok
    obtain ⟨parts, hparts, hmessage⟩ := bind_eq_ok _ _ _ hmessage
    cases hmessage
    rw [scalars_intercalate _ (scalars_literal _), scalars_formatParts py cfg record _ parts hparts,
      Printable, hrecord]
    exact ⟨fun hall other hother => by cases hother; exact hall, fun hall => hall record rfl⟩

/-! ## A record that has a message only -/

section Message

variable (t : Text)

def messageOnly : Value := .dict [(literal "message", .str t)]

theorem get_message : (messageOnly t).get (literal "message") = .ok (.str t) := by
  simp [messageOnly, Value.get]

theorem get_other (col : Text) (h : col ≠ literal "message") : (messageOnly t).get col = .ok .none := by
  rw [messageOnly, Value.get, List.lookup_cons, beq_eq_false_iff_ne.mpr h]
  rfl

theorem column_message : column py cfg (literal "message") (.str t) = .ok [escapeText t] := by
  have hvalue : escapeControlChars py (.str t) = .ok (escapeText t) := rfl
  rw [column, hvalue]
  simp [sourceColumns, bind, Except.bind, pure, Except.pure]

/-- Every configuration shows the record, if no pattern is in the way. -/
theorem render_message (line : List Char) (hexclude : cfg.excludePatterns = [])
    (hinclude : cfg.includePatterns = []) (h : py.loads line = .ok (messageOnly t)) :
    ∃ formatted, render py cfg line = some formatted := by
  have hdisplay : shouldDisplay py cfg (messageOnly t) = .ok true := by
    rw [shouldDisplay, get_message, hexclude, hinclude]
    rfl
  have hparts : ∀ columns, ∃ parts, formatParts py cfg (messageOnly t) columns = .ok parts := by
    intro columns
    induction columns with
    | nil => exact ⟨[], rfl⟩
    | cons col columns ih =>
      obtain ⟨parts, hparts⟩ := ih
      have hpart : ∃ part, formatPart py cfg (messageOnly t) col = .ok part := by
        by_cases hcol : col = literal "message"
        · refine ⟨[escapeText t], ?_⟩
          rw [formatPart, hcol, get_message, ← column_message py cfg t]
          rfl
        · refine ⟨[], ?_⟩
          rw [formatPart, get_other t col hcol]
          rfl
      obtain ⟨part, hpart⟩ := hpart
      refine ⟨part ++ parts, ?_⟩
      rw [formatParts, hpart, hparts]
      rfl
  obtain ⟨parts, hparts⟩ := hparts cfg.columns
  refine ⟨(literal " ").intercalate parts, ?_⟩
  have hline : formatLine py cfg line = .ok (some ((literal " ").intercalate parts)) := by
    rw [formatLine, h]
    simp only [bind, Except.bind]
    rw [hdisplay, formatMessage, hparts]
    rfl
  rw [render, hline]

theorem not_printable_message (line : List Char) (hcolumn : literal "message" ∈ cfg.columns) (ht : ¬ Scalars t)
    (h : py.loads line = .ok (messageOnly t)) : ¬ Printable py cfg line := by
  intro hall
  have hpassed := hall _ h _ hcolumn _ (get_message t)
  rw [passed_plain py cfg _ _ (by simp) (by simp [plainColumns])] at hpassed
  exact ht hpassed

end Message

end Viewer

end Minilog.Cli.Render
