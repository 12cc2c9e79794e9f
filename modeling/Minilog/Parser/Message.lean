import Minilog.Lib.Checked

/-! The parsed message (`syslog_message.hpp`) and the names of its numeric codes (`syslog_names.hpp`).
The admission token a message carries belongs to the receive queue and is not part of the value. -/
namespace Minilog.Parser
open Lib
set_option autoImplicit false

inductive Protocol where
  | rfc3164
  | rfc5424
  | unknown
  deriving DecidableEq, Repr

structure SyslogMessage where
  protocol : Protocol := .unknown
  raw : Bytes := []
  srcIp : Bytes := []
  pri : Option ℕ := none
  facility : Option ℕ := none
  severity : Option ℕ := none
  facilityName : Option Bytes := none
  severityName : Option Bytes := none
  version : Option ℕ := none
  timestamp : Option Bytes := none
  hostname : Option Bytes := none
  appName : Option Bytes := none
  procId : Option Bytes := none
  msgId : Option Bytes := none
  message : Bytes := []
  deriving DecidableEq, Repr

/-- Number to name, as written to the JSONL; the index is the numeric code. -/
def kFacilityNames : List Bytes :=
  ["kern", "user", "mail", "daemon", "auth", "syslog", "lpr", "news", "uucp", "clock", "authpriv", "ftp",
    "ntp", "audit", "alert", "clock2", "local0", "local1", "local2", "local3", "local4", "local5", "local6",
    "local7"].map ascii

def kSeverityNames : List Bytes :=
  ["EMERGENCY", "ALERT", "CRITICAL", "ERROR", "WARNING", "NOTICE", "INFO", "DEBUG"].map ascii

theorem kFacilityNames_length : kFacilityNames.length = 24 := rfl

theorem kSeverityNames_length : kSeverityNames.length = 8 := rfl

/-- An access to one of the two tables. -/
def nameAt (table : List Bytes) (i : ℕ) : Checked Bytes :=
  match table[i]? with
  | some name => .ok name
  | none => .error .outOfRange

/-- `if (code < table.size()) name = table[code];` -/
def nameOf (table : List Bytes) (code : ℕ) (name : Option Bytes) : Checked (Option Bytes) :=
  if code < table.length then do return some (← nameAt table code) else return name

theorem nameOf_eq (table : List Bytes) (code : ℕ) (name : Option Bytes) (h : code < table.length) :
    nameOf table code name = .ok (table[code]?) := by
  simp [nameOf, nameAt, h]

end Minilog.Parser
