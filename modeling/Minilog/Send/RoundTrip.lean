import Minilog.Parser.Classify
import Minilog.Send.Format

/-! What `minilog-send` formats the server parses back, field by field.

The validator keeps every separator out of the fields, so each splitting step of the parser ends where
the formatter put the separator. The message stands behind a space in both formats: the CR and LF bytes
the parser strips from the datagram are the message's own. -/
namespace Minilog.Send
open Lib Lib.View Minilog.Parser
set_option autoImplicit false

/-! ## Numbers -/

theorem numeral_isDigit (n : ℕ) : ∀ c ∈ numeral n, isDigit c = true := by
  intro c hc
  have h := mem_numeral n c hc
  simp only [isDigit, Bool.and_eq_true, decide_eq_true_eq, UInt8.le_iff_toNat_le]
  exact h

theorem decimal_numeral (n : ℕ) : decimal (numeral n) = n := by
  have hstep : ∀ (s : List Char) (v : ℕ), (∀ c ∈ s, 48 ≤ c.toNat ∧ c.toNat ≤ 57) →
      (s.map fun c => UInt8.ofNat c.toNat).foldl (fun v c => v * 10 + digitValue c) v =
        Nat.ofDigitChars 10 s v := by
    intro s
    induction s with
    | nil => intro v _; rfl
    | cons c s ih =>
      intro v hs
      have hc := hs c List.mem_cons_self
      have hval : digitValue (UInt8.ofNat c.toNat) = c.toNat - '0'.toNat := by
        rw [digitValue, UInt8.toNat_ofNat', Nat.mod_eq_of_lt (by omega)]
        rfl
      rw [List.map_cons, List.foldl_cons, ih _ fun d hd => hs d (List.mem_cons_of_mem c hd),
        Nat.ofDigitChars_cons, hval, Nat.mul_comm v 10]
  rw [decimal, numeral, hstep _ 0 (digit_bounds n), Nat.ofDigitChars_ten_toDigits]

theorem length_numeral_le (n k : ℕ) (hk : 0 < k) (h : n < 10 ^ k) : (numeral n).length ≤ k := by
  rw [numeral, List.length_map]
  exact Nat.toDigits_length 10 n k hk h

theorem length_numeral_pos (n : ℕ) : 0 < (numeral n).length := List.length_pos_of_ne_nil (numeral_ne_nil n)

theorem isPri_numeral (n : ℕ) (h : n ≤ 191) : IsPri (numeral n) := by
  refine ⟨length_numeral_pos n, length_numeral_le n 3 (by decide) (by omega), numeral_isDigit n, ?_⟩
  rw [decimal_numeral]
  exact h

/-- Leading zeros do not change a number. -/
theorem decimal_zeros (k : ℕ) (s : Bytes) : decimal (List.replicate k 0x30 ++ s) = decimal s := by
  induction k with
  | zero => rfl
  | succ k ih =>
    rw [List.replicate_succ, List.cons_append, ← ih]
    rfl

/-- A number below 100 is padded with zeros to two digits. -/
theorem padded_two (n : ℕ) (h : n < 100) :
    (padded n 2 0x30).length = 2 ∧ (∀ c ∈ padded n 2 0x30, isDigit c = true) ∧
    decimal (padded n 2 0x30) = n := by
  have hle := length_numeral_le n 2 (by decide) (by omega)
  have hstr : toString (n : ℤ) = numeral n := rfl
  by_cases hw : 2 ≤ (numeral n).length
  · rw [padded, hstr, if_pos hw]
    exact ⟨by omega, numeral_isDigit n, decimal_numeral n⟩
  · rw [padded, hstr, if_neg hw]
    refine ⟨by rw [List.length_append, List.length_replicate]; omega, ?_,
      by rw [decimal_zeros, decimal_numeral]⟩
    intro c hc
    rcases List.mem_append.mp hc with hc | hc
    · rw [List.eq_of_mem_replicate hc]
      rfl
    · exact numeral_isDigit n c hc

/-! ## What the validator lets through -/

theorem throwIf_ok (c : Prop) [Decidable c] (e : Bytes) (h : throwIf c e = .ok ()) : ¬ c := by
  intro hc
  rw [throwIf, if_pos hc] at h
  cases h

theorem requireToken_ok (what value : Bytes) (h : requireToken what value = .ok ()) :
    isPrintableAsciiToken value = true := by
  simpa using throwIf_ok _ _ h

theorem requireNoneOf_ok (what value forbidden : Bytes) (h : requireNoneOf what value forbidden = .ok ()) :
    ∀ c ∈ forbidden, c ∉ value :=
  fun c hc hv => throwIf_ok _ _ h ⟨c, hv, hc⟩

theorem whenSome_ok (v : Option Bytes) (check : Bytes → Validated) (h : whenSome v check = .ok ()) :
    ∀ value ∈ v, check value = .ok () := by
  rintro value rfl
  exact h

/-- A token has no byte outside PRINTUSASCII, in particular no space. -/
theorem notMem_token (s : Bytes) (h : isPrintableAsciiToken s = true) (c : UInt8) (hc : c < 33 ∨ 126 < c) :
    c ∉ s := by
  intro hmem
  simp only [isPrintableAsciiToken, Bool.and_eq_true, List.all_eq_true] at h
  have hno := h.2 c hmem
  simp only [Bool.not_eq_true', Bool.or_eq_false_iff, decide_eq_false_iff_not] at hno
  rcases hc with hc | hc
  · exact hno.1 hc
  · exact hno.2 hc

theorem token_ne_nil (s : Bytes) (h : isPrintableAsciiToken s = true) : s ≠ [] := by
  rintro rfl
  cases h

theorem space_notMem_token (s : Bytes) (h : isPrintableAsciiToken s = true) : space ∉ s :=
  notMem_token s h space (.inl (by decide))

/-- What both formats require. -/
theorem validateFields_ok (f : SyslogFields) (rfc3164 : Bool) (h : validateFields f rfc3164 = .ok ()) :
    (∃ facility severity : ℕ, f.facility = facility ∧ f.severity = severity ∧ facility ≤ 23 ∧ severity ≤ 7) ∧
      isPrintableAsciiToken f.hostname = true ∧ isPrintableAsciiToken f.app = true ∧
      (∀ pid ∈ f.pid, isPrintableAsciiToken pid = true) ∧
      (if rfc3164 then validate3164 f else validate5424 f) = .ok () := by
  obtain ⟨⟨⟩, hfac, h⟩ := bind_eq_ok _ _ _ h
  obtain ⟨⟨⟩, hsev, h⟩ := bind_eq_ok _ _ _ h
  obtain ⟨⟨⟩, hhost, h⟩ := bind_eq_ok _ _ _ h
  obtain ⟨⟨⟩, happ, h⟩ := bind_eq_ok _ _ _ h
  obtain ⟨⟨⟩, hpid, h⟩ := bind_eq_ok _ _ _ h
  obtain ⟨⟨⟩, hformat, _⟩ := bind_eq_ok _ _ _ h
  have hfac := throwIf_ok _ _ hfac
  have hsev := throwIf_ok _ _ hsev
  refine ⟨⟨f.facility.toNat, f.severity.toNat, by omega, by omega, by omega, by omega⟩,
    requireToken_ok _ _ hhost, requireToken_ok _ _ happ, ?_, hformat⟩
  intro pid hp
  exact requireToken_ok _ _ (whenSome_ok _ _ hpid pid hp)

theorem validate5424_ok (f : SyslogFields) (h : validate5424 f = .ok ()) :
    ∀ msgid ∈ f.msgid, isPrintableAsciiToken msgid = true := by
  obtain ⟨⟨⟩, _, h⟩ := bind_eq_ok _ _ _ h
  obtain ⟨⟨⟩, _, h⟩ := bind_eq_ok _ _ _ h
  obtain ⟨⟨⟩, _, h⟩ := bind_eq_ok _ _ _ h
  intro msgid hm
  obtain ⟨⟨⟩, htoken, _⟩ := bind_eq_ok _ _ _ (whenSome_ok _ _ h msgid hm)
  exact requireToken_ok _ _ htoken

theorem validate3164_ok (f : SyslogFields) (h : validate3164 f = .ok ()) :
    (∀ c ∈ ascii "[]:", c ∉ f.app) ∧ (∀ pid ∈ f.pid, ∀ c ∈ ascii "[]:", c ∉ pid) ∧ f.msgid = none := by
  obtain ⟨⟨⟩, happ, h⟩ := bind_eq_ok _ _ _ h
  obtain ⟨⟨⟩, hpid, h⟩ := bind_eq_ok _ _ _ h
  obtain ⟨⟨⟩, hid, _⟩ := bind_eq_ok _ _ _ h
  refine ⟨requireNoneOf_ok _ _ _ happ, ?_, by simpa using throwIf_ok _ _ hid⟩
  intro pid hp
  exact requireNoneOf_ok _ _ _ (whenSome_ok _ _ hpid pid hp)

/-! ## The shared parts of a datagram -/

/-- Line ends are stripped behind the last byte that is none. -/
theorem stripLineEnds_append (a b : Bytes) (c : UInt8) (hc : isLineEnd c = false) :
    stripLineEnds (a ++ c :: b) = a ++ c :: stripLineEnds b := by
  induction b using List.reverseRecOn with
  | nil =>
    have hlast := List.rdropWhile_concat_neg isLineEnd a c (by simp [hc])
    rwa [stripLineEnds]
  | append_singleton b d ih =>
    have hshape : a ++ c :: (b ++ [d]) = a ++ c :: b ++ [d] := by simp
    rw [hshape]
    by_cases hd : isLineEnd d = true
    · rw [stripLineEnds, stripLineEnds, List.rdropWhile_concat_pos _ _ _ hd,
        List.rdropWhile_concat_pos _ _ _ hd]
      exact ih
    · rw [stripLineEnds, stripLineEnds, List.rdropWhile_concat_neg _ _ _ hd,
        List.rdropWhile_concat_neg _ _ _ hd]
      simp

theorem pri_eq (f : SyslogFields) (facility severity : ℕ) (hf : f.facility = facility)
    (hs : f.severity = severity) :
    pri f = ascii "<" ++ numeral (8 * facility + severity) ++ ascii ">" := by
  have hcode : f.facility * 8 + f.severity = ((8 * facility + severity : ℕ) : ℤ) := by
    rw [hf, hs]
    omega
  rw [pri, hcode]
  rfl

/-- The PRI is read back into its two halves. -/
theorem parsePri_pri (f : SyslogFields) (facility severity : ℕ) (hf : f.facility = facility)
    (hs : f.severity = severity) (hf23 : facility ≤ 23) (hs7 : severity ≤ 7) (rest : Bytes) :
    parsePri (pri f ++ rest) = some (8 * facility + severity, rest) := by
  have h := parsePri_form _ rest (isPri_numeral (8 * facility + severity) (by omega))
  rw [pri_eq f facility severity hf hs, h, decimal_numeral]

/-! ## RFC 5424 -/

/-- A value the parser reports, `-` being the nil value. -/
def given (v : Option Bytes) : Option Bytes := v.filter (· ≠ ascii "-")

theorem nilable_given (v : Option Bytes) : Parser.nilable (nilable v) = given v := by
  cases v with
  | none => rfl
  | some s =>
    by_cases hs : s = ascii "-"
    · rw [hs]
      rfl
    · simp [Parser.nilable, nilable, given, Option.filter, hs]

theorem space_notMem_nilable (v : Option Bytes) (h : ∀ s ∈ v, isPrintableAsciiToken s = true) :
    space ∉ nilable v := by
  cases v with
  | none => decide
  | some s => exact space_notMem_token s (h s rfl)

/-- Five words with a space behind each are the five header fields. -/
theorem fill5424_words (data : Bytes) (pri ver : ℕ) (hpri : pri ≤ 191) (t h a p i rest : Bytes) (ht : space ∉ t)
    (hh : space ∉ h) (ha : space ∉ a) (hp : space ∉ p) (hi : space ∉ i) :
    fill5424 data pri ver
        (t ++ space :: (h ++ space :: (a ++ space :: (p ++ space :: (i ++ space :: rest))))) =
      .ok (some { withPri { protocol := .rfc5424, raw := data } pri with
        version := some ver, timestamp := Parser.nilable t, hostname := Parser.nilable h,
        appName := Parser.nilable a, procId := Parser.nilable p, msgId := Parser.nilable i, message :=
        rest }) := by
  exact fill5424_tail data pri ver hpri t h a p _ _ _ ht hh ha hp (parseNilable_token i rest hi)

/-- A word as it may stand in a header: not empty, no space and no control character. -/
def PlainWord (s : Bytes) : Prop := s ≠ [] ∧ ∀ c ∈ s, space < c ∧ c ≠ 0x7F

theorem PlainWord.append {a b : Bytes} (ha : PlainWord a) (hb : PlainWord b) : PlainWord (a ++ b) := by
  refine ⟨by simp [ha.1], ?_⟩
  intro c hc
  rcases List.mem_append.mp hc with hc | hc
  · exact ha.2 c hc
  · exact hb.2 c hc

theorem numeral_plainWord (n : ℕ) : PlainWord (numeral n) := by
  refine ⟨numeral_ne_nil n, ?_⟩
  intro c hc
  have hb := mem_numeral n c hc
  refine ⟨UInt8.lt_iff_toNat_lt.mpr (by change 32 < c.toNat; omega), ?_⟩
  rintro rfl
  exact absurd hb (by decide)

theorem padded_plainWord (value : ℤ) (width : ℕ) (fill : UInt8) (hfill : space < fill ∧ fill ≠ 0x7F) :
    PlainWord (padded value width fill) := by
  have hstr : PlainWord (toString value) := by
    cases value with
    | ofNat n => exact numeral_plainWord n
    | negSucc n =>
      exact PlainWord.append ⟨by decide, forall_mem_byte _ _ (by decide)⟩ (numeral_plainWord (n + 1))
  simp only [padded]
  split
  · exact hstr
  · refine ⟨by simp [hstr.1], ?_⟩
    intro c hc
    rcases List.mem_append.mp hc with hc | hc
    · rw [List.eq_of_mem_replicate hc]
      exact hfill
    · exact hstr.2 c hc

/-- Whatever the fields of the time are. -/
theorem rfc5424Timestamp_plainWord (t : LocalTime) : PlainWord (rfc5424Timestamp t) := by
  have hpad : ∀ value width, PlainWord (padded value width 0x30) :=
    fun value width => padded_plainWord value width 0x30 (by decide)
  have hsep : ∀ s ∈ [ascii "-", ascii "+", ascii "T", ascii ":", ascii "."], PlainWord s := by
    intro s hs
    have hall : ∀ s ∈ [ascii "-", ascii "+", ascii "T", ascii ":", ascii "."],
        s ≠ [] ∧ s.all (fun c => decide (space < c ∧ c ≠ 0x7F)) = true := by decide
    exact ⟨(hall s hs).1, forall_mem_byte s _ (hall s hs).2⟩
  have hsign : PlainWord (if t.utcOffsetSeconds < 0 then ascii "-" else ascii "+") := by
    split
    · exact hsep _ (by simp)
    · exact hsep _ (by simp)
  have hdash := hsep (ascii "-") (by simp)
  have hcolon := hsep (ascii ":") (by simp)
  unfold rfc5424Timestamp
  exact ((((((((((((((((hpad _ _).append hdash).append (hpad _ _)).append hdash).append (hpad _ _)).append
    (hsep _ (by simp))).append (hpad _ _)).append hcolon).append (hpad _ _)).append hcolon).append
    (hpad _ _)).append (hsep _ (by simp))).append (hpad _ _)).append hsign).append (hpad _ _)).append
    hcolon).append (hpad _ _)

/-- The message that comes back for the fields of an RFC 5424 datagram. -/
def parsed5424 (f : SyslogFields) (facility severity : ℕ) (data : Bytes) : SyslogMessage :=
  { withPri { protocol := .rfc5424, raw := data } (8 * facility + severity) with
    version := some 1, timestamp := given (some f.timestamp), hostname := given (some f.hostname),
    appName := given (some f.app), procId := given f.pid, msgId := given f.msgid,
    message := ascii "- " ++ stripLineEnds f.message }

theorem parseSyslog_5424 (f : SyslogFields) (facility severity : ℕ) (hf : f.facility = facility)
    (hs : f.severity = severity) (hf23 : facility ≤ 23) (hs7 : severity ≤ 7) (hts : space ∉ f.timestamp)
    (hhost : space ∉ f.hostname) (happ : space ∉ f.app) (hpid : space ∉ nilable f.pid)
    (hid : space ∉ nilable f.msgid) :
    parseSyslog (formatRfc5424 f) =
      .ok (parsed5424 f facility severity (stripLineEnds (formatRfc5424 f))) := by
  obtain ⟨data, hdata⟩ : ∃ data, data = stripLineEnds (formatRfc5424 f) := ⟨_, rfl⟩
  obtain ⟨R, hR⟩ : ∃ R, R = f.timestamp ++ space :: (f.hostname ++ space :: (f.app ++ space ::
    (nilable f.pid ++ space ::
      (nilable f.msgid ++ space :: (ascii "- " ++ stripLineEnds f.message))))) := ⟨_, rfl⟩
  have hshape : data = pri f ++ (ascii "1" ++ space :: R) := by
    have hcut := stripLineEnds_append (pri f ++ ascii "1 " ++ f.timestamp ++ ascii " " ++ f.hostname ++
      ascii " " ++ f.app ++ ascii " " ++ nilable f.pid ++ ascii " " ++ nilable f.msgid ++
      ascii " -") f.message space rfl
    have hfmt : formatRfc5424 f = pri f ++ ascii "1 " ++ f.timestamp ++ ascii " " ++ f.hostname ++ ascii " " ++
      f.app ++ ascii " " ++ nilable f.pid ++ ascii " " ++ nilable f.msgid ++ ascii " -" ++ space ::
      f.message := by
      simp [formatRfc5424, ascii]
    rw [hdata, hfmt, hcut, hR]
    simp [ascii]
  have hcount : ¬ R.count space < 4 := by
    rw [hR]
    simp only [List.count_append, List.count_cons_self]
    omega
  have htry := tryRfc5424_runs data (ascii "1") (space :: R) (8 * facility + severity)
    (by rw [hshape]; exact parsePri_pri f facility severity hf hs hf23 hs7 _)
    (forall_mem_byte _ _ (by decide)) (by intro c hc; cases hc; rfl)
  have hone : decimal (ascii "1") = 1 ∧ ¬ ((ascii "1").length = 0 ∨ 2 < (ascii "1").length) := by decide
  rw [if_neg hone.2, hone.1] at htry
  simp only [ne_eq, not_true_eq_false, if_false, if_neg hcount] at htry
  have hfill := fill5424_words data (8 * facility + severity) 1 (by omega) f.timestamp f.hostname f.app
    (nilable f.pid) (nilable f.msgid) (ascii "- " ++ stripLineEnds f.message) hts hhost happ hpid hid
  rw [← hR] at hfill
  rw [hfill, nilable_given, nilable_given] at htry
  have hnil : ∀ s, Parser.nilable s = given (some s) := fun s => nilable_given (some s)
  rw [hnil, hnil, hnil] at htry
  simp only [parseSyslog, ← hdata, htry, ok_bind, pure_eq_ok]
  rfl

/-- **RFC 5424 comes back as it was sent.** The `- ` in front of the message is the structured data, which
the parser leaves in the message. -/
theorem formatRfc5424_roundtrip :
    (∀ f, validateFields f false = .ok () → PlainWord f.timestamp →
      ∃ msg, parseSyslog (formatRfc5424 f) = .ok msg ∧ msg.protocol = .rfc5424 ∧ msg.version = some 1 ∧
        msg.pri.map Int.ofNat = some (8 * f.facility + f.severity) ∧
        msg.facility.map Int.ofNat = some f.facility ∧ msg.severity.map Int.ofNat = some f.severity ∧
        msg.timestamp = given (some f.timestamp) ∧ msg.hostname = given (some f.hostname) ∧
        msg.appName = given (some f.app) ∧ msg.procId = given f.pid ∧ msg.msgId = given f.msgid ∧
        msg.message = ascii "- " ++ stripLineEnds f.message) ∧
      ∀ t, PlainWord (rfc5424Timestamp t) := by
  refine ⟨?_, rfc5424Timestamp_plainWord⟩
  intro f hf hts
  obtain ⟨⟨facility, severity, hfac, hsev, hf23, hs7⟩, hhost, happ, hpid, hformat⟩ :=
    validateFields_ok f false hf
  have hid := validate5424_ok f hformat
  have hts' : space ∉ f.timestamp := fun h => absurd (hts.2 space h).1 (by decide)
  have hparse := parseSyslog_5424 f facility severity hfac hsev hf23 hs7 hts' (space_notMem_token _ hhost)
    (space_notMem_token _ happ) (space_notMem_nilable _ hpid) (space_notMem_nilable _ hid)
  have hdiv : (8 * facility + severity) / 8 = facility := by omega
  have hmod : (8 * facility + severity) % 8 = severity := by omega
  refine ⟨_, hparse, rfl, rfl, ?_, ?_, ?_, rfl, rfl, rfl, rfl, rfl, rfl⟩
  · simp [parsed5424, withPri, hfac, hsev]
  · simp [parsed5424, withPri, hfac, hdiv]
  · simp [parsed5424, withPri, hsev, hmod]

/-- A field set with two nil values; the message starts with a space and ends in line ends. -/
def sample5424 : SyslogFields where
  timestamp := ascii "-"
  hostname := ascii "web"
  app := ascii "cron"
  pid := some (ascii "-")
  msgid := some (ascii "ID47")
  message := ascii " done \r\n\r\n"

theorem formatRfc5424_roundtrip_sample :
    ∃ msg, parseSyslog (formatRfc5424 sample5424) = .ok msg ∧ msg.protocol = .rfc5424 ∧ msg.timestamp = none ∧
      msg.procId = none ∧ msg.msgId = some (ascii "ID47") ∧ msg.message = ascii "-  done " := by
  obtain ⟨msg, hparse, hproto, _, _, _, _, hts, _, _, hpid, hid, hmsg⟩ :=
    formatRfc5424_roundtrip.1 sample5424 (by decide) ⟨by decide, forall_mem_byte _ _ (by decide)⟩
  exact ⟨msg, hparse, hproto, hts, hpid, hid, hmsg⟩

/-! ## RFC 3164 -/

/-- The fields of a broken-down time that is one. -/
structure InRange (t : Tm) : Prop where
  mon : 0 ≤ t.mon ∧ t.mon ≤ 11
  mday : 1 ≤ t.mday ∧ t.mday ≤ 31
  hour : 0 ≤ t.hour ∧ t.hour ≤ 23
  min : 0 ≤ t.min ∧ t.min ≤ 59
  sec : 0 ≤ t.sec ∧ t.sec ≤ 59

theorem isClock_padded (hour min sec : ℕ) (hh : hour ≤ 23) (hm : min ≤ 59) (hs : sec ≤ 59) :
    IsClock (padded hour 2 0x30 ++ ascii ":" ++ padded min 2 0x30 ++ ascii ":" ++ padded sec 2 0x30) := by
  obtain ⟨hlen₁, hdig₁, hval₁⟩ := padded_two hour (by omega)
  obtain ⟨hlen₂, hdig₂, hval₂⟩ := padded_two min (by omega)
  obtain ⟨hlen₃, hdig₃, hval₃⟩ := padded_two sec (by omega)
  refine ⟨_, _, _, rfl, hlen₁, hlen₂, hlen₃, ?_, by omega, by omega, by omega⟩
  intro c hc
  simp only [List.mem_append] at hc
  rcases hc with (hc | hc) | hc
  · exact hdig₁ c hc
  · exact hdig₂ c hc
  · exact hdig₃ c hc

/-- A space and the day padded with spaces are spaces and the day's digits. -/
theorem padded_day (day : ℕ) (h1 : 1 ≤ day) (h31 : day ≤ 31) :
    ∃ S, ascii " " ++ padded day 2 space = S ++ numeral day ∧ IsSpaces S ∧ IsDay (numeral day) := by
  have hday : IsDay (numeral day) := by
    refine ⟨length_numeral_pos day, length_numeral_le day 2 (by decide) (by omega), numeral_isDigit day, ?_⟩
    rw [decimal_numeral]
    exact ⟨h1, h31⟩
  have hstr : toString (day : ℤ) = numeral day := rfl
  by_cases hw : 2 ≤ (numeral day).length
  · refine ⟨ascii " ", by rw [padded, hstr, if_pos hw], ⟨by decide, forall_mem_byte _ _ (by decide)⟩, hday⟩
  · refine ⟨ascii " " ++ List.replicate (2 - (numeral day).length) space, ?_, ⟨by simp [ascii], ?_⟩, hday⟩
    · rw [padded, hstr, if_neg hw, List.append_assoc]
    · intro c hc
      rcases List.mem_append.mp hc with hc | hc
      · exact forall_mem_byte (ascii " ") (· = space) (by decide) c hc
      · exact List.eq_of_mem_replicate hc

theorem monthAt_mem (mon : ℤ) (name : Bytes) (h : monthAt mon = .ok name) : name ∈ Parser.kMonths := by
  cases mon with
  | negSucc n => cases h
  | ofNat n =>
    simp only [monthAt] at h
    split at h
    · next hname =>
      cases h
      exact List.mem_of_getElem? hname
    · cases h

/-- The formatter's timestamp is one the parser knows. -/
theorem isTimestamp_of_inRange (t : LocalTime) (ts : Bytes) (h : rfc3164Timestamp t = .ok ts)
    (ht : InRange t.tm) :
    IsTimestamp ts := by
  obtain ⟨name, hname, hts⟩ := bind_eq_ok _ _ _ h
  cases hts
  obtain ⟨day, hday⟩ := Int.eq_ofNat_of_zero_le (show 0 ≤ t.tm.mday by have := ht.mday; omega)
  obtain ⟨hour, hhour⟩ := Int.eq_ofNat_of_zero_le ht.hour.1
  obtain ⟨min, hmin⟩ := Int.eq_ofNat_of_zero_le ht.min.1
  obtain ⟨sec, hsec⟩ := Int.eq_ofNat_of_zero_le ht.sec.1
  have hmday := ht.mday
  have hh23 := ht.hour.2
  have hm59 := ht.min.2
  have hs59 := ht.sec.2
  obtain ⟨S, hS, hspaces, hisDay⟩ := padded_day day (by omega) (by omega)
  refine ⟨name, S, numeral day, ascii " ", _, ?_, monthAt_mem _ _ hname, hspaces, hisDay,
    ⟨by decide, forall_mem_byte _ _ (by decide)⟩, isClock_padded hour min sec (by omega) (by omega) (by omega)⟩
  have hS' : name ++ ascii " " ++ padded day 2 space = name ++ S ++ numeral day := by
    rw [List.append_assoc, hS, List.append_assoc]
  rw [hday, hhour, hmin, hsec, hS']
  simp only [List.append_assoc]

theorem nonEmpty_some (s : Bytes) (h : s ≠ []) : nonEmpty s = some s := if_neg h

/-- A tag without brackets is the name of the application. -/
theorem parse3164Tag_app (app rest : Bytes) (hne : app ≠ []) (hsp : space ∉ app)
    (hno : ∀ c ∈ ascii "[]:", c ∉ app) :
    parse3164Tag (app ++ 0x3A :: rest) = .ok (some app, none, dropSpace rest) := by
  rw [parse3164Tag_plain app rest hsp (hno _ (by decide)) (.inl (hno _ (by decide))), nonEmpty_some app hne]

/-- A tag `APP[PID]` is taken apart at its brackets. -/
theorem parse3164Tag_pid (app pid rest : Bytes) (hne : app ≠ []) (hne' : pid ≠ []) (hsp : space ∉ app)
    (hsp' : space ∉ pid) (hno : ∀ c ∈ ascii "[]:", c ∉ app) (hno' : ∀ c ∈ ascii "[]:", c ∉ pid) :
    parse3164Tag (app ++ ascii "[" ++ pid ++ ascii "]" ++ 0x3A :: rest) = .ok (some app, some pid,
      dropSpace rest) := by
  have hshape : app ++ ascii "[" ++ pid ++ ascii "]" = app ++ 0x5B :: (pid ++ [0x5D]) := by
    simp [ascii]
  have hTsp : space ∉ app ++ 0x5B :: (pid ++ [0x5D]) := by
    have hne₁ : space ≠ 0x5B := by decide
    have hne₂ : space ≠ 0x5D := by decide
    simp only [List.mem_append, List.mem_cons, List.not_mem_nil, hsp, hsp', hne₁, hne₂, or_self,
      not_false_eq_true]
  have hTcolon : 0x3A ∉ app ++ 0x5B :: (pid ++ [0x5D]) := by
    have h1 := hno 0x3A (by decide)
    have h2 := hno' 0x3A (by decide)
    simp [h1, h2]
  rw [hshape, parse3164Tag_brackets app pid rest (hno _ (by decide)) hTsp hTcolon, nonEmpty_some app hne,
    nonEmpty_some pid hne']

/-- The message that comes back for the fields of an RFC 3164 datagram. -/
def parsed3164 (f : SyslogFields) (facility severity : ℕ) (data : Bytes) : SyslogMessage :=
  { withPri { protocol := .rfc3164, raw := data } (8 * facility + severity) with
    timestamp := some f.timestamp, hostname := some f.hostname, appName := some f.app, procId := f.pid,
    message := stripLineEnds f.message }

theorem dropSpace_space (s : Bytes) : dropSpace (space :: s) = s := by
  rw [dropSpace, if_pos rfl]

theorem parseSyslog_3164 (f : SyslogFields) (facility severity : ℕ) (hf : f.facility = facility)
    (hs : f.severity = severity) (hf23 : facility ≤ 23) (hs7 : severity ≤ 7) (hts : IsTimestamp f.timestamp)
    (hhost : space ∉ f.hostname)
    (htag : ∀ rest, parse3164Tag (tagOf f ++ 0x3A :: rest) = .ok (some f.app, f.pid, dropSpace rest)) :
    parseSyslog (formatRfc3164 f) =
      .ok (parsed3164 f facility severity (stripLineEnds (formatRfc3164 f))) := by
  obtain ⟨data, hdata⟩ : ∃ data, data = stripLineEnds (formatRfc3164 f) := ⟨_, rfl⟩
  obtain ⟨body, hbody⟩ : ∃ body, body = tagOf f ++ 0x3A :: space :: stripLineEnds f.message := ⟨_, rfl⟩
  have hshape : data = pri f ++ (f.timestamp ++ space :: (f.hostname ++ space :: body)) := by
    have hcut := stripLineEnds_append (pri f ++ f.timestamp ++ ascii " " ++ f.hostname ++ ascii " " ++
      tagOf f ++ ascii ":") f.message space rfl
    have hfmt : formatRfc3164 f = pri f ++ f.timestamp ++ ascii " " ++ f.hostname ++ ascii " " ++ tagOf f ++
        ascii ":" ++ space :: f.message := by
      simp [formatRfc3164, ascii]
    rw [hdata, hfmt, hcut, hbody]
    simp [ascii]
  have hform : Rfc3164Form data (numeral (8 * facility + severity)) f.timestamp
      (space :: (f.hostname ++ space :: body)) := by
    refine ⟨?_, isPri_numeral _ (by omega), hts⟩
    rw [hshape, pri_eq f facility severity hf hs]
    simp only [List.append_assoc]
  have hfirst : tryRfc5424 data = .ok none := by
    rcases tryRfc5424_refuses data with h | ⟨D, V, R, h⟩
    · exact h
    · exact (forms_exclusive _ _ _ _ _ _ _ h hform).elim
  have hpri := parsePri_pri f facility severity hf hs hf23 hs7 (f.timestamp ++ space ::
    (f.hostname ++ space :: body))
  rw [← hshape] at hpri
  have hbodyTag := htag (space :: stripLineEnds f.message)
  rw [← hbody, dropSpace_space] at hbodyTag
  have hsecond : tryRfc3164 data = .ok (some (parsed3164 f facility severity data)) := by
    simp only [tryRfc3164, hpri, parse3164Timestamp_form _ _ hts, dropSpace_space, ok_bind,
      parse3164Hostname_word _ _ hhost, hbodyTag, applyPri_eq _ (8 * facility + severity) (by omega),
      pure_eq_ok]
    rfl
  simp only [parseSyslog, ← hdata, hfirst, hsecond, ok_bind, pure_eq_ok]

/-- **RFC 3164 comes back as it was sent**, for any time of day. -/
theorem formatRfc3164_roundtrip (f : SyslogFields) (t : LocalTime) (hf : validateFields f true = .ok ())
    (ht : InRange t.tm) (hts : rfc3164Timestamp t = .ok f.timestamp) :
    ∃ msg, parseSyslog (formatRfc3164 f) = .ok msg ∧ msg.protocol = .rfc3164 ∧
      msg.facility.map Int.ofNat = some f.facility ∧ msg.severity.map Int.ofNat = some f.severity ∧
      msg.timestamp = some f.timestamp ∧ msg.hostname = some f.hostname ∧ msg.appName = some f.app ∧
      msg.procId = f.pid ∧ msg.msgId = none ∧ msg.message = stripLineEnds f.message := by
  obtain ⟨⟨facility, severity, hfac, hsev, hf23, hs7⟩, hhost, happ, hpid, hformat⟩ :=
    validateFields_ok f true hf
  obtain ⟨happNo, hpidNo, _⟩ := validate3164_ok f hformat
  have htag : ∀ rest, parse3164Tag (tagOf f ++ 0x3A :: rest) = .ok (some f.app, f.pid, dropSpace rest) := by
    intro rest
    cases hp : f.pid with
    | none =>
      rw [tagOf, hp]
      exact parse3164Tag_app f.app rest (token_ne_nil _ happ) (space_notMem_token _ happ) happNo
    | some pid =>
      have htoken := hpid pid hp
      rw [tagOf, hp]
      exact parse3164Tag_pid f.app pid rest (token_ne_nil _ happ) (token_ne_nil _ htoken)
        (space_notMem_token _ happ) (space_notMem_token _ htoken) happNo (hpidNo pid hp)
  have hparse := parseSyslog_3164 f facility severity hfac hsev hf23 hs7 (isTimestamp_of_inRange t _ hts ht)
    (space_notMem_token _ hhost) htag
  have hdiv : (8 * facility + severity) / 8 = facility := by omega
  have hmod : (8 * facility + severity) % 8 = severity := by omega
  refine ⟨_, hparse, rfl, ?_, ?_, rfl, rfl, rfl, rfl, rfl, rfl⟩
  · simp [parsed3164, withPri, hfac, hdiv]
  · simp [parsed3164, withPri, hsev, hmod]

/-- A day of one digit, a pid, and a message of line ends only. -/
def sample3164 : SyslogFields where
  timestamp := ascii "Feb  9 07:05:00"
  hostname := ascii "web"
  app := ascii "cron"
  pid := some (ascii "42")
  message := ascii "\r\n"

theorem formatRfc3164_roundtrip_sample :
    ∃ msg, parseSyslog (formatRfc3164 sample3164) = .ok msg ∧ msg.protocol = .rfc3164 ∧
      msg.timestamp = some (ascii "Feb  9 07:05:00") ∧ msg.procId = some (ascii "42") ∧ msg.message = [] := by
  obtain ⟨msg, hparse, hproto, _, _, hts, _, _, hpid, _, hmsg⟩ :=
    formatRfc3164_roundtrip sample3164 { tm := { mon := 1, mday := 9, hour := 7, min := 5 } } (by decide)
      ⟨by decide, by decide, by decide, by decide, by decide⟩ (by decide)
  exact ⟨msg, hparse, hproto, hts, hpid, hmsg⟩

end Minilog.Send
