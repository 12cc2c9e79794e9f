import Minilog.Parser.Message

/-! The JSONL record of a message (`sanitizeUtf8` and `toJsonlRecord` in `output/log_file.cpp`).

`boost::json::serialize` is library code: it is the parameter `serialize`, from the members of the object in
insertion order to the text. `jsonText` is a function of that kind, the compact form of an object of
strings. -/
namespace Minilog.Output
open Lib
open Minilog.Parser
set_option autoImplicit false

def kReplacement : Bytes := [0xEF, 0xBF, 0xBD]

/-- Length of the sequence a lead byte announces, with the bounds of its first continuation byte. -/
def leadByte (c : UInt8) : Option (ℕ × UInt8 × UInt8) :=
  if 0xC2 ≤ c && c ≤ 0xDF then some (2, 0x80, 0xBF)
  else if c = 0xE0 then some (3, 0xA0, 0xBF)
  else if 0xE1 ≤ c && c ≤ 0xEC then some (3, 0x80, 0xBF)
  else if c = 0xED then some (3, 0x80, 0x9F)
  else if 0xEE ≤ c && c ≤ 0xEF then some (3, 0x80, 0xBF)
  else if c = 0xF0 then some (4, 0x90, 0xBF)
  else if 0xF1 ≤ c && c ≤ 0xF3 then some (4, 0x80, 0xBF)
  else if c = 0xF4 then some (4, 0x80, 0x8F)
  else none

/-- How many bytes are copied from here, if a valid sequence starts here. -/
def validLength : Bytes → Option ℕ
  | [] => none
  | c :: rest =>
    if c ≤ 0x7F then some 1
    else
      match leadByte c with
      | none => none
      | some (len, lo, hi) =>
        if rest.length + 1 < len then none
        else
          match rest with
          | [] => none
          | b1 :: more =>
            if b1 < lo || hi < b1 then none
            else if (more.take (len - 2)).all (fun b => 0x80 ≤ b && b ≤ 0xBF) then some len
            else none

/-- The loop over the input, with `skip` bytes of a copied sequence still in front. -/
def sanitizeFrom : ℕ → Bytes → Bytes
  | _, [] => []
  | skip + 1, _ :: rest => sanitizeFrom skip rest
  | 0, c :: rest =>
    match validLength (c :: rest) with
    | some len => (c :: rest).take len ++ sanitizeFrom (len - 1) rest
    | none => kReplacement ++ sanitizeFrom 0 rest

def sanitizeUtf8 (s : Bytes) : Bytes := sanitizeFrom 0 s

/-- The members of the record; `none` is `null`. -/
def recordMembers (msg : SyslogMessage) (rcv : Bytes) : List (Bytes × Option Bytes) :=
  [(ascii "rcv", some rcv),
    (ascii "src", some msg.srcIp),
    (ascii "proto", some (match msg.protocol with
      | .rfc3164 => ascii "RFC3164"
      | .rfc5424 => ascii "RFC5424"
      | .unknown => ascii "UNKNOWN")),
    (ascii "facility", msg.facilityName.map sanitizeUtf8),
    (ascii "severity", msg.severityName.map sanitizeUtf8),
    (ascii "hostname", msg.hostname.map sanitizeUtf8),
    (ascii "app", msg.appName.map sanitizeUtf8),
    (ascii "pid", msg.procId.map sanitizeUtf8),
    (ascii "msgid", msg.msgId.map sanitizeUtf8),
    (ascii "msg_time", msg.timestamp.map sanitizeUtf8),
    (ascii "message", some (sanitizeUtf8 msg.message))]

def toJsonlRecord (serialize : List (Bytes × Option Bytes) → Bytes) (msg : SyslogMessage) (rcv : Bytes) :
    Bytes :=
  serialize (recordMembers msg rcv)

/-! ## A serializer -/

def jsonDigit (d : UInt8) : UInt8 := if d < 10 then 0x30 + d else 0x57 + d

def jsonByte (c : UInt8) : Bytes :=
  if c = 0x22 then [backslash, 0x22]
  else if c = backslash then [backslash, backslash]
  else if c = 0x08 then ascii "\\b"
  else if c = 0x0C then ascii "\\f"
  else if c = lf then ascii "\\n"
  else if c = cr then ascii "\\r"
  else if c = tab then ascii "\\t"
  else if c < 0x20 then ascii "\\u00" ++ [jsonDigit (c / 16), jsonDigit (c % 16)]
  else [c]

def jsonString (s : Bytes) : Bytes := [0x22] ++ s.flatMap jsonByte ++ [0x22]

def jsonMember (m : Bytes × Option Bytes) : Bytes :=
  jsonString m.1 ++ [0x3A] ++ (m.2.map jsonString).getD (ascii "null")

def jsonMembers : List (Bytes × Option Bytes) → Bytes
  | [] => []
  | [m] => jsonMember m
  | m :: n :: rest => jsonMember m ++ [0x2C] ++ jsonMembers (n :: rest)

def jsonText (members : List (Bytes × Option Bytes)) : Bytes := [0x7B] ++ jsonMembers members ++ [0x7D]

theorem lf_notMem_jsonByte (c : UInt8) : lf ∉ jsonByte c :=
  forall_byte (fun c => lf ∉ jsonByte c) (by decide +kernel) c

theorem lf_notMem_jsonString (s : Bytes) : lf ∉ jsonString s := by
  intro h
  simp only [jsonString, List.mem_append, List.mem_singleton, List.mem_flatMap] at h
  obtain (h | ⟨c, -, hc⟩) | h := h
  · exact absurd h (by decide)
  · exact lf_notMem_jsonByte c hc
  · exact absurd h (by decide)

theorem lf_notMem_jsonMember (m : Bytes × Option Bytes) : lf ∉ jsonMember m := by
  have hvalue : lf ∉ (m.2.map jsonString).getD (ascii "null") := by
    cases m.2 with
    | none => exact (by decide)
    | some s => exact lf_notMem_jsonString s
  intro h
  simp only [jsonMember, List.mem_append, List.mem_singleton] at h
  obtain (h | h) | h := h
  · exact lf_notMem_jsonString m.1 h
  · exact absurd h (by decide)
  · exact hvalue h

/-- An object is one line. -/
theorem lf_notMem_jsonText (members : List (Bytes × Option Bytes)) : lf ∉ jsonText members := by
  have hmembers : lf ∉ jsonMembers members := by
    fun_induction jsonMembers members with
    | case1 => exact (by decide)
    | case2 m => exact lf_notMem_jsonMember m
    | case3 m n rest ih =>
      intro h
      simp only [List.mem_append, List.mem_singleton] at h
      obtain (h | h) | h := h
      · exact lf_notMem_jsonMember m h
      · exact absurd h (by decide)
      · exact ih h
  intro h
  simp only [jsonText, List.mem_append, List.mem_singleton] at h
  obtain (h | h) | h := h
  · exact absurd h (by decide)
  · exact hmembers h
  · exact absurd h (by decide)

end Minilog.Output
