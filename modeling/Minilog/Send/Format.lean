import Minilog.Lib.Checked

/-! What `minilog-send` puts into a datagram (`syslog_format.cpp`).

An `int` is an integer: no field that passes `validateFields`, and no broken-down time, comes near its
ends. `std::runtime_error` is an `Except` with the text of the error. -/
namespace Minilog.Send
open Lib Lib.View
set_option autoImplicit false

/-- Everything that goes into one datagram. -/
structure SyslogFields where
  facility : ℤ := 1
  severity : ℤ := 6
  timestamp : Bytes := []
  hostname : Bytes := []
  app : Bytes := []
  pid : Option Bytes := none
  msgid : Option Bytes := none
  message : Bytes := []
  deriving DecidableEq, Repr

/-- `std::tm`, the fields that are formatted. -/
structure Tm where
  year : ℤ := 0
  mon : ℤ := 0
  mday : ℤ := 0
  hour : ℤ := 0
  min : ℤ := 0
  sec : ℤ := 0
  deriving DecidableEq, Repr

/-- A local wall-clock time, broken down and with its offset from UTC. -/
structure LocalTime where
  tm : Tm := {}
  microseconds : ℤ := 0
  utcOffsetSeconds : ℤ := 0
  deriving DecidableEq, Repr

/-- `std::to_string`. -/
def toString : ℤ → Bytes
  | .ofNat n => numeral n
  | .negSucc n => ascii "-" ++ numeral (n + 1)

def kMonths : List Bytes :=
  ["Jan", "Feb", "Mar", "Apr", "May", "Jun", "Jul", "Aug", "Sep", "Oct", "Nov", "Dec"].map ascii

def pri (f : SyslogFields) : Bytes := ascii "<" ++ toString (f.facility * 8 + f.severity) ++ ascii ">"

def nilable (v : Option Bytes) : Bytes := v.getD (ascii "-")

/-- A number, left-padded to `width` with `fill`. -/
def padded (value : ℤ) (width : ℕ) (fill : UInt8) : Bytes :=
  let s := toString value
  if width ≤ s.length then s else List.replicate (width - s.length) fill ++ s

/-- RFC 5424 header fields are PRINTUSASCII: anything printable but a space. -/
def isPrintableAsciiToken (s : Bytes) : Bool := s ≠ [] && s.all fun c => !(c < 33 || 126 < c)

/-! ## Validation -/

abbrev Validated := Except Bytes Unit

/-- `if (c) throw std::runtime_error(e);` -/
def throwIf (c : Prop) [Decidable c] (e : Bytes) : Validated := if c then .error e else .ok ()

def requireToken (what value : Bytes) : Validated :=
  throwIf (isPrintableAsciiToken value = false)
    (what ++ ascii " must be one word of printable ASCII, got '" ++ value ++ ascii "'")

def requireAtMost (what value : Bytes) (max : ℕ) (rfc : Bytes) : Validated :=
  throwIf (max < value.length)
    (what ++ ascii " is " ++ numeral value.length ++ ascii " characters; " ++ rfc ++
      ascii " allows at most " ++ numeral max)

def requireNoneOf (what value forbidden : Bytes) : Validated :=
  throwIf (∃ c ∈ value, c ∈ forbidden)
    (what ++ ascii " cannot contain any of '" ++ forbidden ++ ascii "' in an RFC 3164 message, got '" ++
      value ++ ascii "'")

/-- A check of an optional field, made when the field is there. -/
def whenSome (v : Option Bytes) (check : Bytes → Validated) : Validated :=
  match v with
  | none => .ok ()
  | some value => check value

/-- `APP[PID]`, the tag of an RFC 3164 message. -/
def tagOf (f : SyslogFields) : Bytes :=
  match f.pid with
  | none => f.app
  | some pid => f.app ++ ascii "[" ++ pid ++ ascii "]"

/-- The checks of the RFC 3164 format alone. -/
def validate3164 (f : SyslogFields) : Validated := do
  -- the receiver finds the pid by the brackets and the end of the tag by the colon
  requireNoneOf (ascii "app") f.app (ascii "[]:")
  whenSome f.pid fun pid => requireNoneOf (ascii "pid") pid (ascii "[]:")
  throwIf (f.msgid.isSome = true) (ascii "--msgid has no field to go in with --rfc3164")
  requireAtMost (ascii "the tag APP[PID]") (tagOf f) 32 (ascii "RFC 3164")

/-- The checks of the RFC 5424 format alone. -/
def validate5424 (f : SyslogFields) : Validated := do
  requireAtMost (ascii "hostname") f.hostname 255 (ascii "RFC 5424")
  requireAtMost (ascii "app") f.app 48 (ascii "RFC 5424")
  whenSome f.pid fun pid => requireAtMost (ascii "pid") pid 128 (ascii "RFC 5424")
  whenSome f.msgid fun msgid => do
    requireToken (ascii "msgid") msgid
    requireAtMost (ascii "msgid") msgid 32 (ascii "RFC 5424")

def validateFields (f : SyslogFields) (rfc3164 : Bool) : Validated := do
  throwIf (f.facility < 0 ∨ 23 < f.facility) (ascii "facility must be 0-23, got " ++ toString f.facility)
  throwIf (f.severity < 0 ∨ 7 < f.severity) (ascii "severity must be 0-7, got " ++ toString f.severity)
  requireToken (ascii "hostname") f.hostname
  requireToken (ascii "app") f.app
  whenSome f.pid fun pid => requireToken (ascii "pid") pid
  (if rfc3164 then validate3164 f else validate5424 f : Validated)
  throwIf (f.message = []) (ascii "the message is empty")

/-! ## The two formats -/

/-- "1" is the version; the lone "-" is empty structured data. -/
def formatRfc5424 (f : SyslogFields) : Bytes :=
  pri f ++ ascii "1 " ++ f.timestamp ++ ascii " " ++ f.hostname ++ ascii " " ++ f.app ++ ascii " " ++
    nilable f.pid ++ ascii " " ++ nilable f.msgid ++ ascii " - " ++ f.message

def formatRfc3164 (f : SyslogFields) : Bytes :=
  pri f ++ f.timestamp ++ ascii " " ++ f.hostname ++ ascii " " ++ tagOf f ++ ascii ": " ++ f.message

/-! ## Timestamps -/

/-- `2026-09-23T14:07:31.123456+02:00`. -/
def rfc5424Timestamp (t : LocalTime) : Bytes :=
  let offset := t.utcOffsetSeconds
  let sign := if offset < 0 then ascii "-" else ascii "+"
  let absOff := if offset < 0 then -offset else offset
  padded (t.tm.year + 1900) 4 0x30 ++ ascii "-" ++ padded (t.tm.mon + 1) 2 0x30 ++ ascii "-" ++
    padded t.tm.mday 2 0x30 ++ ascii "T" ++ padded t.tm.hour 2 0x30 ++ ascii ":" ++
    padded t.tm.min 2 0x30 ++ ascii ":" ++ padded t.tm.sec 2 0x30 ++ ascii "." ++
    padded t.microseconds 6 0x30 ++ sign ++ padded (absOff.tdiv 3600) 2 0x30 ++ ascii ":" ++
    padded ((absOff.tmod 3600).tdiv 60) 2 0x30

/-- `kMonths[mon]`; there is no month outside 0..11 to read. -/
def monthAt : ℤ → Checked Bytes
  | .ofNat mon =>
    match kMonths[mon]? with
    | some name => .ok name
    | none => .error .outOfRange
  | .negSucc _ => .error .outOfRange

/-- `Sep 23 14:07:31`, the day padded with a space. -/
def rfc3164Timestamp (t : LocalTime) : Checked Bytes := do
  return (← monthAt t.tm.mon) ++ ascii " " ++ padded t.tm.mday 2 space ++ ascii " " ++
    padded t.tm.hour 2 0x30 ++ ascii ":" ++ padded t.tm.min 2 0x30 ++ ascii ":" ++ padded t.tm.sec 2 0x30

end Minilog.Send
