import Minilog.Parser.Message

/-! The datagram parser (`syslog_parser.cpp`).

A `string_view` passed by reference becomes a view that is returned. Testing `empty()` before
reading `sv[0]` is a match on the list; every other access is checked. -/
namespace Minilog.Parser
open Lib Lib.View
set_option autoImplicit false

/-- `std::isdigit` on a byte. -/
def isDigit (c : UInt8) : Bool := 0x30 ≤ c && c ≤ 0x39

/-- `c - '0'`. -/
def digitValue (c : UInt8) : ℕ := c.toNat - 0x30

/-- Whether `p < sv.size() && sv[p] == c`. -/
def hasAt (sv : Bytes) (p : ℕ) (c : UInt8) : Checked Bool :=
  if p < sv.length then do return (← at_ sv p) == c else return false

/-- `if (!sv.empty() && sv[0] == ' ') sv.remove_prefix(1);` -/
def dropSpace : Bytes → Bytes
  | [] => []
  | c :: sv => if c = space then sv else c :: sv

def applyPri (msg : SyslogMessage) (pri : ℕ) : Checked SyslogMessage := do
  if 191 < pri then throw .assertion
  let facilityName ← nameOf kFacilityNames (pri / 8) msg.facilityName
  let severityName ← nameOf kSeverityNames (pri % 8) msg.severityName
  return { msg with pri := some pri, facility := some (pri / 8), severity := some (pri % 8),
                    facilityName, severityName }

/-- The digit loop of `parsePri`: the value, the number of digits, and the view after them. -/
def parsePriDigits : Bytes → ℕ → ℕ → ℕ × ℕ × Bytes
  | [], pri, digits => (pri, digits, [])
  | c :: sv, pri, digits =>
    if isDigit c && digits < 3 then parsePriDigits sv (pri * 10 + digitValue c) (digits + 1)
    else (pri, digits, c :: sv)

/-- `none` is the -1 of a failure. -/
def parsePri : Bytes → Option (ℕ × Bytes)
  | [] => none
  | c :: sv =>
    if c ≠ 0x3C then none
    else
      match parsePriDigits sv 0 0 with
      | (_, _, []) => none
      | (pri, digits, e :: rest) =>
        if digits = 0 ∨ e ≠ 0x3E then none
        else if 191 < pri then none
        else some (pri, rest)

/-- The next token up to a space, and the view after it; `none` for `-` or an empty view. -/
def parseNilable (sv : Bytes) : Checked (Option Bytes × Bytes) :=
  if sv = [] then return (none, sv)
  else do
    let (tok, sv) ← match find sv space with
      | none => pure (sv, [])
      | some e => do
        let tok ← substr sv 0 e
        let sv ← removePrefix sv (e + 1)
        pure (tok, sv)
    if tok = ascii "-" then return (none, sv)
    return (some tok, sv)

def kMonths : List Bytes :=
  ["Jan", "Feb", "Mar", "Apr", "May", "Jun", "Jul", "Aug", "Sep", "Oct", "Nov", "Dec"].map ascii

def isMonthPrefix (sv : Bytes) : Checked Bool :=
  if sv.length < 3 then return false
  else do
    let c0 ← at_ sv 0
    let c1 ← at_ sv 1
    let c2 ← at_ sv 2
    return kMonths.any fun m => m == [c0, c1, c2]

/-- The day of one or two digits at `day0`. -/
def readDay (sv : Bytes) (day0 digits : ℕ) : Checked ℕ :=
  if digits = 1 then do return digitValue (← at_ sv day0)
  else do return digitValue (← at_ sv day0) * 10 + digitValue (← at_ sv (day0 + 1))

/-- Whether the eight bytes of `t` are a time `HH:MM:SS`. -/
def isClockTime (t : Bytes) : Checked Bool := do
  let h1 ← at_ t 0
  let h2 ← at_ t 1
  let c1 ← at_ t 2
  let m1 ← at_ t 3
  let m2 ← at_ t 4
  let c2 ← at_ t 5
  let s1 ← at_ t 6
  let s2 ← at_ t 7
  if !isDigit h1 || !isDigit h2 || c1 != 0x3A || !isDigit m1 || !isDigit m2 || c2 != 0x3A ||
      !isDigit s1 || !isDigit s2 then
    return false
  let hh := digitValue h1 * 10 + digitValue h2
  let mm := digitValue m1 * 10 + digitValue m2
  let ss := digitValue s1 * 10 + digitValue s2
  if 23 < hh || 59 < mm || 59 < ss then return false
  return true

/-- `Mon [D]D HH:MM:SS`: the timestamp and the view after it and one optional space. -/
def parse3164Timestamp (sv : Bytes) : Checked (Option (Bytes × Bytes)) := do
  if !(← isMonthPrefix sv) then return none
  if !(← hasAt sv 3 space) then return none
  let day0 ← scan (· == space) sv 3
  let p ← scan isDigit sv day0
  if p - day0 = 0 ∨ 2 < p - day0 then return none
  let day ← readDay sv day0 (p - day0)
  if day < 1 ∨ 31 < day then return none
  if !(← hasAt sv p space) then return none
  let p ← scan (· == space) sv p
  if sv.length < p + 8 then return none
  let t ← substr sv p 8
  if !(← isClockTime t) then return none
  let ts ← substr sv 0 (p + 8)
  let sv ← removePrefix sv (p + 8)
  return some (ts, dropSpace sv)

/-- An empty string becomes an absent field. -/
def nonEmpty (s : Bytes) : Option Bytes := if s = [] then none else some s

/-- `app:` or `app[pid]:`; the two fields and the view after the tag, untouched when there is none. -/
def parse3164Tag (sv : Bytes) : Checked (Option Bytes × Option Bytes × Bytes) :=
  match find sv 0x3A, find sv space with
  | none, _ => return (none, none, sv)
  | some colon, sp =>
    if (sp.any fun i => i < colon) then return (none, none, sv)
    else do
      let tagPart ← substr sv 0 colon
      let sv ← removePrefix sv (colon + 1)
      let sv := dropSpace sv
      match find tagPart 0x5B with
      | none => return (nonEmpty tagPart, none, sv)
      | some bracket =>
        if (← back tagPart) = 0x5D then
          let app ← substr tagPart 0 bracket
          let pid ← substr tagPart (bracket + 1) (tagPart.length - bracket - 2)
          return (nonEmpty app, nonEmpty pid, sv)
        else return (nonEmpty tagPart, none, sv)

/-- The accumulator loop over the `k` version digits from index `j`. -/
def readVersion (sv : Bytes) : ℕ → ℕ → ℕ → Checked ℕ
  | 0, _, ver => return ver
  | k + 1, j, ver => do readVersion sv k (j + 1) (ver * 10 + digitValue (← at_ sv j))

/-- The five header fields; everything after them, structured data included, is the message. -/
def fill5424 (data : Bytes) (pri ver : ℕ) (sv : Bytes) : Checked (Option SyslogMessage) := do
  let (timestamp, sv) ← parseNilable sv
  let (hostname, sv) ← parseNilable sv
  let (appName, sv) ← parseNilable sv
  let (procId, sv) ← parseNilable sv
  let (msgId, sv) ← parseNilable sv
  let msg ← applyPri { protocol := .rfc5424, raw := data } pri
  return some { msg with version := some ver, timestamp, hostname, appName, procId, msgId, message := sv }

def tryRfc5424 (data : Bytes) : Checked (Option SyslogMessage) :=
  match parsePri data with
  | none => return none
  | some (pri, sv) => do
    let vi ← scan isDigit sv 0
    if vi = 0 ∨ 2 < vi then return none
    if !(← hasAt sv vi space) then return none
    let ver ← readVersion sv vi 0 0
    if ver ≠ 1 then return none
    let sv ← removePrefix sv (vi + 1)
    if sv.count space < 4 then return none
    fill5424 data pri ver sv

/-- The word up to the next space and the view after it; at the end of the data an empty word is
absent. -/
def parse3164Hostname (sv : Bytes) : Checked (Option Bytes × Bytes) :=
  match find sv space with
  | none => return (nonEmpty sv, [])
  | some sp => do
    let hostname ← substr sv 0 sp
    let sv ← removePrefix sv (sp + 1)
    return (some hostname, sv)

def tryRfc3164 (data : Bytes) : Checked (Option SyslogMessage) :=
  match parsePri data with
  | none => return none
  | some (pri, sv) => do
    match ← parse3164Timestamp sv with
    | none => return none
    | some (ts, sv) =>
      let (hostname, sv) ← parse3164Hostname sv
      let (appName, procId, sv) ← parse3164Tag sv
      let msg ← applyPri { protocol := .rfc3164, raw := data } pri
      return some { msg with timestamp := some ts, hostname, appName, procId, message := sv }

def isLineEnd (c : UInt8) : Bool := c = cr || c = lf

/-- The datagram without the trailing CR and LF bytes some senders append. -/
def stripLineEnds (data : Bytes) : Bytes := data.rdropWhile isLineEnd

def parseSyslog (data : Bytes) : Checked SyslogMessage := do
  let data := stripLineEnds data
  match ← tryRfc5424 data with
  | some msg => return msg
  | none =>
    match ← tryRfc3164 data with
    | some msg => return msg
    | none => return { protocol := .unknown, raw := data, message := data }

end Minilog.Parser
