import Minilog.Lib.ObjectText
import Minilog.Output.Jsonl
import Minilog.Parser.Classify
import Minilog.Viewer.Reader

/-! The substring scan of the viewer's filter on the records the server writes.

`boost::json::serialize` writes an object without spaces, its members in insertion order and a backslash in
front of every quote in a string; how it escapes other bytes is left open (`StringEscape`). `bytes.ToLower`
replaces each rune by `unicode.ToLower` of it; of that table only `LowerCase` is used. `after_key` then finds
a key of an object at its member and nowhere else. -/
namespace Minilog.Viewer
open Lib
open Minilog.Output Minilog.Parser
set_option autoImplicit false

/-- `bytes.ToLower` and `strings.ToLower`. -/
def toLower (unicodeToLower : ℕ → ℕ) : Bytes → Bytes := mapRunes unicodeToLower

def isWord (c : UInt8) : Bool :=
  isSmallLetter c || (0x41 ≤ c && c ≤ 0x5A) || (0x30 ≤ c && c ≤ 0x39) || c == 0x5F

/-- How `boost::json` writes the bytes of a string. -/
structure StringEscape (escape : Bytes → Bytes) : Prop where
  quotes : ∀ s, Escaped (escape s)
  plain : ∀ s, (∀ c ∈ s, isWord c = true) → escape s = s

/-- `boost::json::serialize` of an object of strings and nulls. -/
def serializeObject (escape : Bytes → Bytes) (members : List (Bytes × Option Bytes)) : Bytes :=
  objectText (members.map fun m => (escape m.1, m.2.map escape))

/-! ## The first occurrence -/

/-- What stands behind the first occurrence of `key`. -/
def after (text key : Bytes) : Option Bytes := (index text key).map fun i => text.drop (i + key.length)

theorem after_here (key rest : Bytes) : after (key ++ rest) key = some rest := by
  have hindex : index (key ++ rest) key = some 0 := by
    unfold index
    rw [if_pos (List.isPrefixOf_iff_prefix.mpr (List.prefix_append key rest))]
  rw [after, hindex, Option.map_some, Nat.zero_add, List.drop_left]

theorem after_step (key : Bytes) (c : UInt8) (rest : Bytes) (h : ¬ key <+: c :: rest) :
    after (c :: rest) key = after rest key := by
  have hindex : index (c :: rest) key = (index rest key).map (· + 1) := by
    rw [index, if_neg (fun hp => h (List.isPrefixOf_iff_prefix.mp hp))]
  unfold after
  rw [hindex, Option.map_map]
  congr 1
  funext i
  rw [Function.comp_apply, Nat.add_right_comm, List.drop_succ_cons]

section Scan

variable (name : Bytes) (hname : ∀ c ∈ name, isSmallLetter c = true) (hne : name ≠ [])

/-- The bytes the scan looks for. -/
def keyText : Bytes := [quote] ++ name ++ ascii "\":"

theorem keyText_eq : keyText name = doubleQuote :: (name ++ [doubleQuote, colon]) := rfl

theorem not_keyText (c : UInt8) (hc : c ≠ doubleQuote) (rest : Bytes) : ¬ keyText name <+: c :: rest := by
  intro h
  rw [keyText_eq, List.cons_prefix_cons] at h
  exact hc h.1.symm

/-- Bytes without a quote are passed. -/
theorem after_plain (s rest : Bytes) (hs : doubleQuote ∉ s) :
    after (s ++ rest) (keyText name) = after rest (keyText name) := by
  induction s with
  | nil => rfl
  | cons c s ih =>
    simp only [List.mem_cons, not_or] at hs
    rw [List.cons_append, after_step _ c _ (not_keyText name c (Ne.symm hs.1) _)]
    exact ih hs.2

include hname hne

/-- A quote that is not followed by a letter is passed. -/
theorem after_closing (d : UInt8) (hd : isSmallLetter d = false) (rest : Bytes) :
    after (doubleQuote :: d :: rest) (keyText name) = after (d :: rest) (keyText name) := by
  apply after_step
  intro h
  rw [keyText_eq, List.cons_prefix_cons] at h
  cases hn : name with
  | nil => exact hne hn
  | cons c n =>
    rw [hn, List.cons_append, List.cons_prefix_cons] at h
    have := hname c (by rw [hn]; exact List.mem_cons_self)
    rw [h.2.1, hd] at this
    cases this

/-- The bytes of a string and its closing quote are passed. -/
theorem after_string (t : Bytes)
    (ht : ∀ a b, t = a ++ doubleQuote :: b → a = [] ∨ a.getLast? = some backslash) (d : UInt8)
    (hd : d ≠ colon) (hletter : isSmallLetter d = false) (rest : Bytes) :
    after (t ++ doubleQuote :: d :: rest) (keyText name) = after (d :: rest) (keyText name) := by
  induction t with
  | nil => exact after_closing name hname hne d hletter rest
  | cons c t ih =>
    have htail : ∀ a b, t = a ++ doubleQuote :: b → a = [] ∨ a.getLast? = some backslash := by
      intro a b hab
      by_cases ha : a = []
      · exact .inl ha
      · have h := (ht (c :: a) b (by rw [hab, List.cons_append])).resolve_left (List.cons_ne_nil c a)
        exact .inr (by rw [← h, List.getLast?_cons_of_ne_nil ha])
    rw [List.cons_append, after_step]
    · exact ih htail
    · intro h
      rw [keyText_eq, List.cons_prefix_cons] at h
      obtain ⟨r, hr⟩ := h.2
      refine string_elsewhere name hname hne t htail d hd rest r ?_
      rw [← hr]
      simp

/-- A member with another key is passed. -/
theorem after_member (m : Bytes × Option Bytes) (hkey : m.1 ≠ name) (hquote : doubleQuote ∉ m.1)
    (hvalue : ∀ t ∈ m.2, Escaped t) (d : UInt8) (hd : d ≠ colon) (hdq : d ≠ doubleQuote)
    (hletter : isSmallLetter d = false) (rest : Bytes) :
    after (memberText m ++ d :: rest) (keyText name) = after rest (keyText name) := by
  obtain ⟨k, v⟩ := m
  -- the key
  have hskip : ∀ r, after (doubleQuote :: (k ++ doubleQuote :: colon :: r)) (keyText name) =
      after r (keyText name) := by
    intro r
    rw [after_step, after_plain name k _ hquote, after_closing name hname hne colon (by decide),
      after_step _ _ _ (not_keyText name colon (by decide) _)]
    intro h
    rw [keyText_eq, List.cons_prefix_cons] at h
    obtain ⟨r', hr'⟩ := h.2
    exact hkey (key_elsewhere name hname k hquote r r' (by rw [← hr']; simp))
  cases v with
  | none =>
    have hnull := after_plain name (ascii "null" ++ [d]) rest (by
      rw [List.mem_append, List.mem_singleton]
      rintro (h | h)
      · exact absurd h (by decide)
      · exact hdq h.symm)
    simp only [memberText, valueText, List.append_assoc, List.cons_append, List.nil_append] at hnull ⊢
    rw [hskip, hnull]
  | some t =>
    have ht := hvalue t rfl
    simp only [memberText, valueText, List.append_assoc, List.cons_append, List.nil_append]
    rw [hskip, after_step]
    · rw [after_string name hname hne t (fun a b hab => .inr (ht a b hab)) d hd hletter,
        after_step _ _ _ (not_keyText name d hdq _)]
    · intro h
      rw [keyText_eq, List.cons_prefix_cons] at h
      obtain ⟨r, hr⟩ := h.2
      exact string_elsewhere name hname hne t (fun a b hab => .inr (ht a b hab)) d hd rest r
        (by rw [← hr]; simp)

/-- The scan finds the member with the key. -/
theorem after_key (ms : List (Bytes × Option Bytes)) (hquote : ∀ m ∈ ms, doubleQuote ∉ m.1)
    (hvalue : ∀ m ∈ ms, ∀ t ∈ m.2, Escaped t) (v : Option Bytes) (hv : ms.lookup name = some v) :
    ∃ d rest, after (membersText ms) (keyText name) = some (valueText v ++ d :: rest) := by
  induction ms with
  | nil => cases hv
  | cons m ms ih =>
    obtain ⟨d, rest, htext, hd, hdq, hletter, hrest⟩ := membersText_cons m ms
    rw [htext]
    by_cases hkey : m.1 = name
    · have hval : v = m.2 := by
        obtain ⟨k, w⟩ := m
        simp only at hkey
        rw [hkey, List.lookup_cons_self] at hv
        exact (Option.some.inj hv).symm
      refine ⟨d, rest, ?_⟩
      have h := after_here (keyText name) (valueText m.2 ++ d :: rest)
      rw [hval, ← h, memberText, hkey, keyText_eq]
      simp
    · have hlookup : ms.lookup name = some v := by
        obtain ⟨k, w⟩ := m
        have hne' : (name == k) = false := beq_eq_false_iff_ne.mpr (Ne.symm hkey)
        rwa [List.lookup_cons, hne'] at hv
      have hms : ms ≠ [] := by
        intro h
        rw [h] at hlookup
        cases hlookup
      rw [after_member name hname hne m hkey (hquote m List.mem_cons_self)
        (hvalue m List.mem_cons_self) d hd hdq hletter, hrest.resolve_left hms]
      exact ih (fun m' h => hquote m' (List.mem_cons_of_mem m h))
        (fun m' h => hvalue m' (List.mem_cons_of_mem m h)) hlookup

/-- What the scan makes of an object: the value of the key, if it is a string. -/
theorem matchStringField_object (ms : List (Bytes × Option Bytes)) (hquote : ∀ m ∈ ms, doubleQuote ∉ m.1)
    (hvalue : ∀ m ∈ ms, ∀ t ∈ m.2, Escaped t) (v : Option Bytes) (hv : ms.lookup name = some v)
    (hplain : ∀ t ∈ v, doubleQuote ∉ t) (allowed : List Bytes) :
    matchStringField (objectText ms) name allowed = true ↔ ∃ t ∈ v, t ∈ allowed := by
  obtain ⟨d, rest, hafter⟩ := after_key name hname hne ms hquote hvalue v hv
  have hobject : after (objectText ms) (keyText name) = some (valueText v ++ d :: rest) := by
    rw [objectText, List.singleton_append, after_step _ _ _ (not_keyText name 0x7B (by decide) _), hafter]
  obtain ⟨i, hi, hdrop⟩ := Option.map_eq_some_iff.mp hobject
  unfold matchStringField
  simp only
  rw [← keyText, hi]
  simp only [hdrop]
  cases v with
  | none =>
    have hnull : valueText none ++ d :: rest = 0x6E :: (ascii "ull" ++ d :: rest) := rfl
    rw [hnull, List.dropWhile_cons_of_neg (by decide)]
    have hn : (0x6E : UInt8) ≠ quote := by decide
    simp [hn]
  | some t =>
    have ht := hplain t rfl
    have hfind : (t ++ doubleQuote :: d :: rest).findIdx? (· == quote) = some t.length := by
      rw [List.findIdx?_append, List.findIdx?_eq_none_iff.mpr, List.findIdx?_cons]
      · simp
      · intro c hc
        refine beq_eq_false_iff_ne.mpr fun h => ht ?_
        change quote ∈ t
        rw [← h]
        exact hc
    simp only [valueText, List.append_assoc, List.cons_append, List.nil_append]
    rw [List.dropWhile_cons_of_neg (by decide)]
    simp only [ne_eq, not_true_eq_false, if_false, hfind, List.take_left]
    simp

end Scan

/-! ## Records -/

/-- The names of the tables pass every stage but lower case unchanged. -/
theorem table_names (name : Bytes) (h : name ∈ kFacilityNames ++ kSeverityNames) :
    sanitizeUtf8 name = name ∧ (∀ c ∈ name, isWord c = true) ∧ (∀ c ∈ name, c < 0x80) ∧
    doubleQuote ∉ name.map lowerByte := by
  have hall : ∀ n ∈ kFacilityNames ++ kSeverityNames, sanitizeUtf8 n = n ∧
      n.all (fun c => decide (isWord c = true)) = true ∧
      n.all (fun c => decide (c < 0x80)) = true ∧ doubleQuote ∉ n.map lowerByte := by
    decide +kernel
  obtain ⟨hsanitized, hword, hascii, hquote⟩ := hall name h
  exact ⟨hsanitized, forall_mem_byte name _ hword, forall_mem_byte name _ hascii, hquote⟩

/-- The keys of a record. -/
theorem record_keys (msg : SyslogMessage) (rcv : Bytes) (m : Bytes × Option Bytes)
    (h : m ∈ recordMembers msg rcv) :
    (∀ c ∈ m.1, isWord c = true) ∧ (∀ c ∈ m.1, c < 0x80) ∧ m.1.map lowerByte = m.1 ∧ doubleQuote ∉ m.1 := by
  have hkeys : (recordMembers msg rcv).map Prod.fst = ["rcv", "src", "proto", "facility", "severity",
      "hostname", "app", "pid", "msgid", "msg_time", "message"].map ascii := rfl
  have hall : ∀ k ∈ ["rcv", "src", "proto", "facility", "severity", "hostname", "app", "pid", "msgid",
      "msg_time", "message"].map ascii, k.all (fun c => decide (isWord c = true)) = true ∧
      k.all (fun c => decide (c < 0x80)) = true ∧
      k.map lowerByte = k ∧ doubleQuote ∉ k := by
    decide +kernel
  obtain ⟨hword, hascii, hlower, hquote⟩ := hall m.1 (by rw [← hkeys]; exact List.mem_map.mpr ⟨m, h, rfl⟩)
  exact ⟨forall_mem_byte m.1 _ hword, forall_mem_byte m.1 _ hascii, hlower, hquote⟩

theorem names_in_tables (data : Bytes) (msg : SyslogMessage) (hmsg : parseSyslog data = .ok msg) :
    (∀ name ∈ msg.severityName, name ∈ kFacilityNames ++ kSeverityNames) ∧
      (∀ name ∈ msg.facilityName, name ∈ kFacilityNames ++ kSeverityNames) := by
  cases parseSyslog_names data msg hmsg with
  | inl hnone =>
    rw [hnone.2.2.1, hnone.2.2.2]
    exact ⟨fun name h => (by cases h), fun name h => (by cases h)⟩
  | inr hsome =>
    obtain ⟨facility, severity, fn, sn, -, -, hfn, hf, hsn, hs⟩ := hsome
    rw [hf, hs]
    refine ⟨fun name h => ?_, fun name h => ?_⟩
    · rw [← Option.some.inj h]
      exact List.mem_append_right _ (List.mem_of_getElem? hsn)
    · rw [← Option.some.inj h]
      exact List.mem_append_left _ (List.mem_of_getElem? hfn)

section Record

variable (unicodeToLower : ℕ → ℕ) (hlower : LowerCase unicodeToLower) (escape : Bytes → Bytes)
  (hescape : StringEscape escape)

/-- The members of a record as they stand in the lowered line. -/
def loweredMembers (msg : SyslogMessage) (rcv : Bytes) : List (Bytes × Option Bytes) :=
  (recordMembers msg rcv).map fun m => (m.1, m.2.map fun s => toLower unicodeToLower (escape s))

include hlower hescape

theorem lowered_record (msg : SyslogMessage) (rcv : Bytes) :
    toLower unicodeToLower (toJsonlRecord (serializeObject escape) msg rcv) =
      objectText (loweredMembers unicodeToLower escape msg rcv) := by
  unfold toLower toJsonlRecord serializeObject loweredMembers
  rw [lower_objectText unicodeToLower hlower, List.map_map]
  congr 1
  apply List.map_congr_left
  intro m hm
  obtain ⟨hword, hascii, hsmall, -⟩ := record_keys msg rcv m hm
  simp only [Function.comp_apply, Option.map_map]
  rw [hescape.plain _ hword, hlower.mapRunes_text _ _ hascii, hsmall]
  rfl

/-- A field that holds a name of the tables, or nothing. -/
theorem matchStringField_member (msg : SyslogMessage) (rcv key : Bytes) (field : Option Bytes)
    (hkey : ∀ c ∈ key, isSmallLetter c = true) (hne : key ≠ [])
    (hlookup : (recordMembers msg rcv).lookup key = some (field.map sanitizeUtf8))
    (htable : ∀ name ∈ field, name ∈ kFacilityNames ++ kSeverityNames) (allowed : List Bytes) :
    matchStringField (toLower unicodeToLower (toJsonlRecord (serializeObject escape) msg rcv)) key allowed =
      true ↔
      ∃ name, field = some name ∧ toLower unicodeToLower name ∈ allowed := by
  have hquote : ∀ m ∈ loweredMembers unicodeToLower escape msg rcv, doubleQuote ∉ m.1 := by
    intro m hm
    obtain ⟨m', hm', rfl⟩ := List.mem_map.mp hm
    exact (record_keys msg rcv m' hm').2.2.2
  have hvalue : ∀ m ∈ loweredMembers unicodeToLower escape msg rcv, ∀ t ∈ m.2, Escaped t := by
    intro m hm t ht
    obtain ⟨m', hm', rfl⟩ := List.mem_map.mp hm
    obtain ⟨s, -, rfl⟩ := Option.mem_map.mp ht
    exact lower_escaped unicodeToLower hlower _ (hescape.quotes s)
  have hvalues : ∀ name ∈ field, toLower unicodeToLower (escape (sanitizeUtf8 name)) =
      toLower unicodeToLower name ∧
      doubleQuote ∉ toLower unicodeToLower name := by
    intro name hname
    obtain ⟨hsan, hword, hascii, hq⟩ := table_names name (htable name hname)
    rw [hsan, hescape.plain _ hword, toLower, hlower.mapRunes_text _ _ hascii]
    exact ⟨rfl, hq⟩
  have hlowered : (loweredMembers unicodeToLower escape msg rcv).lookup key =
      some (field.map (toLower unicodeToLower)) := by
    have hmap : ∀ l : List (Bytes × Option Bytes),
        (l.map fun m => (m.1, m.2.map fun s => toLower unicodeToLower (escape s))).lookup key =
          (l.lookup key).map fun v => v.map fun s => toLower unicodeToLower (escape s) := by
      intro l
      induction l with
      | nil => rfl
      | cons m l ih =>
        rw [List.map_cons, List.lookup_cons, List.lookup_cons, ih]
        cases key == m.1 with
        | true => rfl
        | false => rfl
    rw [loweredMembers, hmap, hlookup, Option.map_some, Option.map_map]
    cases hf : field with
    | none => rfl
    | some name => rw [Option.map_some, Option.map_some, Function.comp_apply, (hvalues name hf).1]
  rw [lowered_record unicodeToLower hlower escape hescape,
    matchStringField_object key hkey hne _ hquote hvalue _ hlowered]
  · constructor
    · rintro ⟨t, ht, hmem⟩
      obtain ⟨name, hname, rfl⟩ := Option.mem_map.mp ht
      exact ⟨name, hname, hmem⟩
    · rintro ⟨name, hname, hmem⟩
      exact ⟨_, Option.mem_map.mpr ⟨name, hname, rfl⟩, hmem⟩
  · intro t ht
    obtain ⟨name, hname, rfl⟩ := Option.mem_map.mp ht
    exact (hvalues name hname).2

/-- The substring scan is exact on the record of any datagram, whatever its text, receive time and source
are. -/
theorem matchStringField_exact (data rcv srcIp : Bytes) (msg : SyslogMessage)
    (hmsg : parseSyslog data = .ok msg) (allowed : List Bytes) :
    let line := toJsonlRecord (serializeObject escape) { msg with srcIp := srcIp } rcv
    (matchStringField (toLower unicodeToLower line) (ascii "severity") allowed = true ↔
      ∃ name, msg.severityName = some name ∧ toLower unicodeToLower name ∈ allowed) ∧
    (matchStringField (toLower unicodeToLower line) (ascii "facility") allowed = true ↔
      ∃ name, msg.facilityName = some name ∧ toLower unicodeToLower name ∈ allowed) := by
  obtain ⟨hseverity, hfacility⟩ := names_in_tables data msg hmsg
  intro line
  constructor
  · exact matchStringField_member unicodeToLower hlower escape hescape { msg with srcIp := srcIp } rcv
      (ascii "severity") msg.severityName (forall_mem_byte _ _ (by decide)) (by decide) rfl hseverity allowed
  · exact matchStringField_member unicodeToLower hlower escape hescape { msg with srcIp := srcIp } rcv
      (ascii "facility") msg.facilityName (forall_mem_byte _ _ (by decide)) (by decide) rfl hfacility allowed

end Record

/-! ## A serializer and a table -/

theorem escaped_append (x y : Bytes) (hx : Escaped x) (hy : Escaped y) : Escaped (x ++ y) := by
  intro a b h
  cases List.append_eq_append_iff.mp h with
  | inl hin =>
    obtain ⟨z, rfl, hz⟩ := hin
    rw [List.getLast?_append, hy z b hz]
    rfl
  | inr hin =>
    obtain ⟨z, hz, hb⟩ := hin
    cases z with
    | nil => exact absurd (hy [] b hb.symm) (by decide)
    | cons q z =>
      obtain ⟨rfl, -⟩ := List.cons.inj hb
      exact hx a z hz

/-- The escapes `boost::json` writes. -/
def jsonEscape (s : Bytes) : Bytes := s.flatMap jsonByte

theorem jsonEscape_spec : StringEscape jsonEscape := by
  have hbyte : ∀ c, jsonByte c = [backslash, doubleQuote] ∨ doubleQuote ∉ jsonByte c :=
    forall_byte (fun c => jsonByte c = [backslash, doubleQuote] ∨ doubleQuote ∉ jsonByte c) (by decide +kernel)
  have hword : ∀ c, isWord c = true → jsonByte c = [c] :=
    forall_byte (fun c => isWord c = true → jsonByte c = [c]) (by decide +kernel)
  refine ⟨fun s => ?_, fun s hs => ?_⟩
  · induction s with
    | nil =>
      intro a b h
      exact absurd (List.append_eq_nil_iff.mp h.symm).2 (List.cons_ne_nil _ _)
    | cons c s ih =>
      apply escaped_append _ _ ?_ ih
      intro a b h
      cases hbyte c with
      | inl hquote =>
        rw [hquote] at h
        cases a with
        | nil => exact absurd (List.cons.inj h).1 (by decide)
        | cons d a =>
          obtain ⟨hd, htail⟩ := List.cons.inj h
          cases a with
          | nil => rw [← hd]; rfl
          | cons e a =>
            have hnil : [] = a ++ doubleQuote :: b := (List.cons.inj htail).2
            exact absurd (List.append_eq_nil_iff.mp hnil.symm).2 (List.cons_ne_nil _ _)
      | inr hnone => exact absurd (by rw [h]; simp) hnone
  · induction s with
    | nil => rfl
    | cons c s ih =>
      rw [jsonEscape, List.flatMap_cons, hword c (hs c List.mem_cons_self), List.singleton_append]
      exact congrArg (c :: ·) (ih fun d hd => hs d (List.mem_cons_of_mem c hd))

/-- `unicode.ToLower` on ASCII, Latin-1, the dotted capital I and the Kelvin sign. -/
def someToLower (r : ℕ) : ℕ :=
  if 65 ≤ r ∧ r ≤ 90 then r + 32
  else if 0xC0 ≤ r ∧ r ≤ 0xDE ∧ r ≠ 0xD7 then r + 32
  else if r = 0x130 then 0x69
  else if r = 0x212A then 0x6B
  else r

theorem someToLower_spec : LowerCase someToLower := by
  unfold someToLower
  refine ⟨fun r hr => ?_, fun r hr => ?_⟩
  · split_ifs
    all_goals omega
  · split_ifs
    all_goals omega

/-- A sender that puts a field of its own into the host name is not believed. -/
theorem matchStringField_forged :
    ∃ msg, parseSyslog (ascii "<11>1 - \"severity\":\"info\" - - - x") = .ok msg ∧
      matchStringField (toLower someToLower (toJsonlRecord (serializeObject jsonEscape)
        { msg with srcIp := ascii "::1" }
          (ascii "now"))) (ascii "severity") [ascii "error"] = true ∧
      matchStringField (toLower someToLower (toJsonlRecord (serializeObject jsonEscape)
        { msg with srcIp := ascii "::1" }
          (ascii "now"))) (ascii "severity") [ascii "info"] = false := by
  obtain ⟨msg, hmsg, hname⟩ : ∃ msg, parseSyslog (ascii "<11>1 - \"severity\":\"info\" - - - x") = .ok msg ∧
      msg.severityName = some (ascii "ERROR") := ⟨_, rfl, by decide +kernel⟩
  have hexact := fun allowed =>
    (matchStringField_exact someToLower someToLower_spec jsonEscape jsonEscape_spec _ (ascii "now")
      (ascii "::1") msg hmsg allowed).1
  refine ⟨msg, hmsg, (hexact _).mpr ⟨_, hname, by decide +kernel⟩, ?_⟩
  rw [Bool.eq_false_iff]
  intro h
  obtain ⟨name, hn, hmem⟩ := (hexact _).mp h
  rw [hname] at hn
  rw [← Option.some.inj hn] at hmem
  exact absurd hmem (by decide +kernel)

end Minilog.Viewer
