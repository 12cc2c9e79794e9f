import Minilog.Parser.Fields

/-! What `parseSyslog` makes of a datagram: the class it gets and the bytes its fields hold. -/
namespace Minilog.Parser
open Lib Lib.View
set_option autoImplicit false

/-! ## Classification -/

theorem month_head (M : Bytes) (hM : M ∈ kMonths) : ∃ c t, M = c :: t ∧ isDigit c = false := by
  have h : ∀ m ∈ kMonths, m ≠ [] ∧ m.head?.toList.all (fun c => decide (isDigit c = false)) = true := by decide
  obtain ⟨c, t, rfl⟩ := List.exists_cons_of_ne_nil (h M hM).1
  exact ⟨c, t, rfl, forall_mem_byte [c] (fun c => isDigit c = false) (h _ hM).2 c List.mem_cons_self⟩

/-- After the PRI one form goes on with a digit, the other with a letter. -/
theorem forms_exclusive (d D V R D' ts rest : Bytes) (h : Rfc5424Form d D V R) (h' : Rfc3164Form d D' ts rest) :
    False := by
  obtain ⟨hd, hD, hV, _⟩ := h
  obtain ⟨hd', hD', M, S₁, DD, S₂, T, hts, hM, _⟩ := h'
  have hp : parsePri d = some (decimal D, V ++ ascii " " ++ R) := by
    rw [hd]
    have h := parsePri_form D (V ++ ascii " " ++ R) hD
    simpa only [List.append_assoc] using h
  have hp' : parsePri d = some (decimal D', ts ++ rest) := by
    rw [hd', List.append_assoc _ ts rest]
    exact parsePri_form D' (ts ++ rest) hD'
  rw [hp] at hp'
  have htail : V ++ ascii " " ++ R = ts ++ rest := (Prod.mk.inj (Option.some.inj hp')).2
  obtain ⟨c, t, rfl, hc⟩ := month_head M hM
  rw [hts] at htail
  rcases hV with rfl | rfl <;>
  · simp only [ascii, String.reduceToList, List.map_cons, List.cons_append, List.cons.injEq] at htail
    rw [← htail.1] at hc
    exact absurd hc (by decide)

/-- Every datagram is parsed in one of three ways. -/
theorem parseSyslog_cases (data : Bytes) :
    (∃ D V R, Rfc5424Form (stripLineEnds data) D V R ∧
      ∃ msg, tryRfc5424 (stripLineEnds data) = .ok (some msg) ∧ parseSyslog data = .ok msg) ∨
    (∃ D ts rest, Rfc3164Form (stripLineEnds data) D ts rest ∧
      ∃ msg, tryRfc3164 (stripLineEnds data) = .ok (some msg) ∧ parseSyslog data = .ok msg) ∨
    ((¬ ∃ D V R, Rfc5424Form (stripLineEnds data) D V R) ∧
      (¬ ∃ D ts rest, Rfc3164Form (stripLineEnds data) D ts rest) ∧
      parseSyslog data =
        .ok { protocol := .unknown, raw := stripLineEnds data, message := stripLineEnds data }) := by
  obtain ⟨d, hd⟩ : ∃ d, d = stripLineEnds data := ⟨_, rfl⟩
  simp only [parseSyslog, ← hd]
  rcases tryRfc5424_refuses d with h1 | ⟨D, V, R, hform⟩
  · have hno : ¬ ∃ D V R, Rfc5424Form d D V R := by
      rintro ⟨D, V, R, h⟩
      obtain ⟨_, _, _, _, _, _, _, hacc, _⟩ := tryRfc5424_accepts d D V R h
      rw [h1] at hacc
      simp at hacc
    rcases tryRfc3164_refuses d with h2 | ⟨D, ts, rest, hform⟩
    · have hno' : ¬ ∃ D ts rest, Rfc3164Form d D ts rest := by
        rintro ⟨D, ts, rest, h⟩
        obtain ⟨_, _, _, _, _, hacc, _⟩ := tryRfc3164_accepts d D ts rest h
        rw [h2] at hacc
        simp at hacc
      exact .inr (.inr ⟨hno, hno', by simp only [h1, h2, ok_bind, pure_eq_ok]⟩)
    · obtain ⟨_, _, _, _, _, hacc, _⟩ := tryRfc3164_accepts d D ts rest hform
      exact .inr (.inl ⟨D, ts, rest, hform, _, hacc, by simp only [h1, hacc, ok_bind, pure_eq_ok]⟩)
  · obtain ⟨_, _, _, _, _, _, _, hacc, _⟩ := tryRfc5424_accepts d D V R hform
    exact .inl ⟨D, V, R, hform, _, hacc, by simp only [hacc, ok_bind, pure_eq_ok]⟩

/-- The PRI part of a message that was not refused. -/
def PriFields (d : Bytes) (msg : SyslogMessage) : Prop :=
  ∃ D tail facility severity facilityName severityName,
    d = ascii "<" ++ D ++ ascii ">" ++ tail ∧ IsPri D ∧ decimal D ≤ 191 ∧
    msg.pri = some (decimal D) ∧ msg.facility = some facility ∧ msg.severity = some severity ∧
    decimal D = 8 * facility + severity ∧ severity < 8 ∧
    kFacilityNames[facility]? = some facilityName ∧ msg.facilityName = some facilityName ∧
    kSeverityNames[severity]? = some severityName ∧ msg.severityName = some severityName

theorem priFields_of (d D tail : Bytes) (msg : SyslogMessage) (hd : d = ascii "<" ++ D ++ ascii ">" ++ tail)
    (hD : IsPri D) (h1 : msg.pri = some (decimal D)) (h2 : msg.facility = some (decimal D / 8))
    (h3 : msg.severity = some (decimal D % 8)) (h4 : msg.facilityName = kFacilityNames[decimal D / 8]?)
    (h5 : msg.severityName = kSeverityNames[decimal D % 8]?) : PriFields d msg := by
  have hv := hD.2.2.2
  have hf : decimal D / 8 < kFacilityNames.length := by rw [kFacilityNames_length]; omega
  have hs : decimal D % 8 < kSeverityNames.length := by rw [kSeverityNames_length]; omega
  rw [List.getElem?_eq_getElem hf] at h4
  rw [List.getElem?_eq_getElem hs] at h5
  exact ⟨D, tail, decimal D / 8, decimal D % 8, _, _, hd, hD, hv, h1, h2, h3, by omega, by omega,
    List.getElem?_eq_getElem hf, h4, List.getElem?_eq_getElem hs, h5⟩

/-- **parseSyslog classifies exactly by its grammar**, and no access on the way is out of range. -/
theorem parseSyslog_classifies (data : Bytes) :
    ∃ msg, parseSyslog data = .ok msg ∧
      (msg.protocol = .rfc5424 ↔ ∃ D V R, Rfc5424Form (stripLineEnds data) D V R) ∧
      (msg.protocol = .rfc3164 ↔ ∃ D ts rest, Rfc3164Form (stripLineEnds data) D ts rest) ∧
      (∀ d : Bytes, ¬ ((∃ D V R, Rfc5424Form d D V R) ∧ ∃ D ts rest, Rfc3164Form d D ts rest)) ∧
      (msg.protocol = .unknown →
        msg = { protocol := .unknown, raw := stripLineEnds data, message := stripLineEnds data }) ∧
      (msg.protocol ≠ .unknown → PriFields (stripLineEnds data) msg) := by
  have hex : ∀ d : Bytes, ¬ ((∃ D V R, Rfc5424Form d D V R) ∧ ∃ D ts rest, Rfc3164Form d D ts rest) := by
    rintro d ⟨⟨D, V, R, h⟩, ⟨D', ts, rest, h'⟩⟩
    exact forms_exclusive d D V R D' ts rest h h'
  rcases parseSyslog_cases data with ⟨D, V, R, hform, msg, htry, hparse⟩ |
    ⟨D, ts, rest, hform, msg, htry, hparse⟩ | ⟨hno, hno', hparse⟩
  · obtain ⟨_, _, _, _, _, _, _, hacc, _⟩ := tryRfc5424_accepts _ D V R hform
    rw [hacc] at htry
    cases htry
    refine ⟨_, hparse, ⟨fun _ => ⟨D, V, R, hform⟩, fun _ => rfl⟩, ⟨fun h => (nomatch h), fun h => ?_⟩, hex,
      fun h => (nomatch h), fun _ => ?_⟩
    · exact absurd ⟨⟨D, V, R, hform⟩, h⟩ (hex _)
    · refine priFields_of _ D (V ++ ascii " " ++ R) _ ?_ hform.2.1 rfl rfl rfl rfl rfl
      rw [hform.1]
      simp only [List.append_assoc]
  · obtain ⟨_, _, _, _, _, hacc, _⟩ := tryRfc3164_accepts _ D ts rest hform
    rw [hacc] at htry
    cases htry
    refine ⟨_, hparse, ⟨fun h => (nomatch h), fun h => ?_⟩, ⟨fun _ => ⟨D, ts, rest, hform⟩, fun _ => rfl⟩, hex,
      fun h => (nomatch h), fun _ => ?_⟩
    · exact absurd ⟨h, ⟨D, ts, rest, hform⟩⟩ (hex _)
    · refine priFields_of _ D (ts ++ rest) _ ?_ hform.2.1 rfl rfl rfl rfl rfl
      rw [hform.1]
      simp only [List.append_assoc]
  · exact ⟨_, hparse, ⟨fun h => (nomatch h), fun h => absurd h hno⟩,
      ⟨fun h => (nomatch h), fun h => absurd h hno'⟩, hex, fun _ => rfl, fun h => absurd rfl h⟩

/-- The names of a parsed message are absent with their codes, or those of the tables. -/
theorem parseSyslog_names (data : Bytes) (msg : SyslogMessage) (h : parseSyslog data = .ok msg) :
    (msg.facility = none ∧ msg.severity = none ∧ msg.facilityName = none ∧ msg.severityName = none) ∨
      ∃ facility severity facilityName severityName, msg.facility = some facility ∧
      msg.severity = some severity ∧
        kFacilityNames[facility]? = some facilityName ∧ msg.facilityName = some facilityName ∧
        kSeverityNames[severity]? = some severityName ∧ msg.severityName = some severityName := by
  have hpri : ∀ d, PriFields d msg → ∃ facility severity facilityName severityName,
      msg.facility = some facility ∧
      msg.severity = some severity ∧ kFacilityNames[facility]? = some facilityName ∧
      msg.facilityName = some facilityName ∧
      kSeverityNames[severity]? = some severityName ∧ msg.severityName = some severityName := by
    intro d hd
    obtain ⟨_, _, facility, severity, fn, sn, _, _, _, _, hf, hs, _, _, hfn, hfn', hsn, hsn'⟩ := hd
    exact ⟨facility, severity, fn, sn, hf, hs, hfn, hfn', hsn, hsn'⟩
  rcases parseSyslog_cases data with ⟨D, V, R, hform, m, htry, hparse⟩ | ⟨D, ts, rest, hform, m, htry, hparse⟩ |
    ⟨_, _, hparse⟩
  · obtain ⟨_, _, _, _, _, _, _, hacc, _⟩ := tryRfc5424_accepts _ D V R hform
    rw [hacc] at htry
    cases htry
    rw [hparse] at h
    cases h
    exact .inr (hpri _ (priFields_of (ascii "<" ++ D ++ ascii ">") D [] _
      (List.append_nil _).symm hform.2.1 rfl rfl rfl rfl rfl))
  · obtain ⟨_, _, _, _, _, hacc, _⟩ := tryRfc3164_accepts _ D ts rest hform
    rw [hacc] at htry
    cases htry
    rw [hparse] at h
    cases h
    exact .inr (hpri _ (priFields_of (ascii "<" ++ D ++ ascii ">") D [] _
      (List.append_nil _).symm hform.2.1 rfl rfl rfl rfl rfl))
  · rw [hparse] at h
    cases h
    exact .inl ⟨rfl, rfl, rfl, rfl⟩

/-! ## Nothing is dropped -/

/-- The fields are disjoint pieces of the text, in this order. -/
def InOrder : List Bytes → Bytes → Prop
  | [], _ => True
  | f :: fs, d => ∃ gap rest, d = gap ++ f ++ rest ∧ InOrder fs rest

/-- The field values of a message in header order, the message text last. -/
def fieldValues (msg : SyslogMessage) : List Bytes :=
  [msg.timestamp, msg.hostname, msg.appName, msg.procId, msg.msgId].filterMap id ++ [msg.message]

theorem inOrder_prepend (fs : List Bytes) (gap d : Bytes) (h : InOrder fs d) : InOrder fs (gap ++ d) := by
  cases fs with
  | nil => trivial
  | cons f fs =>
    obtain ⟨g, rest, rfl, hrest⟩ := h
    exact ⟨gap ++ g, rest, by simp only [List.append_assoc], hrest⟩

/-- A field that may be absent, read from the text in front of a gap. -/
theorem inOrder_option (f : Option Bytes) (fs : List Bytes) (text d : Bytes) (htext : ∀ v ∈ f, text = v)
    (h : InOrder fs d) : InOrder (f.toList ++ fs) (text ++ d) := by
  cases f with
  | none => exact inOrder_prepend fs text d h
  | some v => exact ⟨[], d, by rw [htext v rfl]; rfl, h⟩

theorem filterMap_id_cons (f : Option Bytes) (fs : List (Option Bytes)) :
    (f :: fs).filterMap id = f.toList ++ fs.filterMap id := by
  cases f <;> rfl

theorem inOrder_last (d gap message : Bytes) (h : d = gap ++ message) : InOrder [message] d :=
  ⟨gap, [], by rw [h, List.append_nil], trivial⟩

/-- Disjoint pieces are together not longer than the text. -/
theorem InOrder.length_le (fs : List Bytes) (d : Bytes) (h : InOrder fs d) :
    (fs.map List.length).sum ≤ d.length := by
  induction fs generalizing d with
  | nil => exact Nat.zero_le _
  | cons f fs ih =>
    obtain ⟨gap, rest, rfl, hrest⟩ := h
    have := ih rest hrest
    rw [List.map_cons, List.sum_cons, List.length_append, List.length_append]
    omega

theorem fieldText_of_mem (f : Option Bytes) : ∀ v ∈ f, fieldText f = v := by
  rintro v rfl
  rfl

theorem getD_of_mem (f : Option Bytes) : ∀ v ∈ f, f.getD [] = v := by
  rintro v rfl
  rfl

/-- The datagram as the RFC 5424 fields read it. -/
def Text5424 (d : Bytes) (msg : SyslogMessage) : Prop :=
  ∃ D V tail, IsPri D ∧ (V = ascii "1" ∨ V = ascii "01") ∧
    d = ascii "<" ++ D ++ ascii ">" ++ V ++ ascii " " ++
      (fieldText msg.timestamp ++ ascii " " ++ fieldText msg.hostname ++ ascii " " ++ fieldText msg.appName ++
        ascii " " ++ fieldText msg.procId ++ ascii " " ++ tail) ∧
    TailText tail msg.msgId msg.message

/-- The datagram as the RFC 3164 fields read it. -/
def Text3164 (d : Bytes) (msg : SyslogMessage) : Prop :=
  ∃ D ts rest sv body, IsPri D ∧ IsTimestamp ts ∧ msg.timestamp = some ts ∧ msg.msgId = none ∧
    d = ascii "<" ++ D ++ ascii ">" ++ ts ++ rest ∧ OptSpace rest sv ∧ HostText sv msg.hostname body ∧
    TagText body msg.appName msg.procId msg.message

theorem optSpace_split (sv rest : Bytes) (h : OptSpace sv rest) : ∃ gap, sv = gap ++ rest := by
  rcases h with h | h
  · exact ⟨[], h⟩
  · exact ⟨ascii " ", h⟩

theorem tailText_inOrder (tail : Bytes) (msgId : Option Bytes) (message : Bytes)
    (h : TailText tail msgId message) :
    InOrder (msgId.toList ++ [message]) tail ∧ message <:+ tail := by
  rcases h with ⟨rfl, rfl, rfl⟩ | ⟨rfl, rfl⟩ | rfl
  · exact ⟨inOrder_last [] [] [] rfl, List.suffix_refl _⟩
  · refine ⟨?_, List.nil_suffix⟩
    have h := inOrder_option msgId [[]] (fieldText msgId) [] (fieldText_of_mem msgId)
      (inOrder_last [] [] [] rfl)
    rwa [List.append_nil] at h
  · refine ⟨?_, List.suffix_append _ _⟩
    rw [List.append_assoc]
    exact inOrder_option msgId _ _ _ (fieldText_of_mem msgId) (inOrder_last _ (ascii " ") message rfl)

theorem text5424_inOrder (d : Bytes) (msg : SyslogMessage) (h : Text5424 d msg) :
    InOrder (fieldValues msg) d ∧ msg.message <:+ d := by
  obtain ⟨D, V, tail, _, _, rfl, htail⟩ := h
  obtain ⟨hord, hsuf⟩ := tailText_inOrder tail msg.msgId msg.message htail
  refine ⟨?_, ?_⟩
  · simp only [fieldValues, filterMap_id_cons, List.filterMap_nil, List.append_nil, List.append_assoc]
    -- the header up to the version stands in front of the first field
    iterate 5 apply inOrder_prepend
    apply inOrder_option _ _ _ _ (fieldText_of_mem _)
    apply inOrder_prepend
    apply inOrder_option _ _ _ _ (fieldText_of_mem _)
    apply inOrder_prepend
    apply inOrder_option _ _ _ _ (fieldText_of_mem _)
    apply inOrder_prepend
    apply inOrder_option _ _ _ _ (fieldText_of_mem _)
    apply inOrder_prepend
    exact hord
  · simp only [← List.append_assoc]
    exact hsuf.trans (List.suffix_append _ _)

theorem tagText_inOrder (body : Bytes) (app pid : Option Bytes) (message : Bytes)
    (h : TagText body app pid message) :
    InOrder (app.toList ++ (pid.toList ++ [message])) body ∧ message <:+ body := by
  rcases h with ⟨rfl, rfl, rfl⟩ | ⟨T, after, rfl, hafter, _, _, hT⟩
  · exact ⟨inOrder_last _ [] message rfl, List.suffix_refl _⟩
  obtain ⟨gap, rfl⟩ := optSpace_split after message hafter
  refine ⟨?_, ?_⟩
  · rcases hT with ⟨rfl, rfl⟩ | ⟨rfl, _⟩
    · simp only [List.append_assoc]
      apply inOrder_option _ _ _ _ (getD_of_mem app)
      exact inOrder_last _ (ascii ":" ++ gap) message (by rw [List.append_assoc])
    · simp only [List.append_assoc]
      apply inOrder_option _ _ _ _ (getD_of_mem app)
      apply inOrder_prepend
      apply inOrder_option _ _ _ _ (getD_of_mem pid)
      exact inOrder_last _ (ascii "]" ++ (ascii ":" ++ gap)) message (by simp only [List.append_assoc])
  · rw [← List.append_assoc]
    exact List.suffix_append _ _

theorem text3164_inOrder (d : Bytes) (msg : SyslogMessage) (h : Text3164 d msg) :
    InOrder (fieldValues msg) d ∧ msg.message <:+ d := by
  obtain ⟨D, ts, rest, sv, body, _, _, hts, hid, rfl, hrest, hhost, htag⟩ := h
  obtain ⟨hord, hsuf⟩ := tagText_inOrder body msg.appName msg.procId msg.message htag
  obtain ⟨gap, rfl⟩ := optSpace_split rest sv hrest
  have hsv : InOrder (msg.hostname.toList ++ (msg.appName.toList ++ (msg.procId.toList ++ [msg.message]))) sv ∧
      msg.message <:+ sv := by
    rcases hhost with ⟨host, hh, rfl⟩ | ⟨rfl, rfl⟩
    · refine ⟨?_, hsuf.trans (List.suffix_append _ _)⟩
      rw [List.append_assoc]
      exact inOrder_option _ _ _ _ (by rw [hh]; rintro v ⟨⟩; rfl) (inOrder_prepend _ _ _ hord)
    · rw [List.suffix_nil.mp hsuf] at hord ⊢
      refine ⟨?_, List.nil_suffix⟩
      have h := inOrder_option msg.hostname _ _ [] (getD_of_mem _) hord
      rwa [List.append_nil] at h
  refine ⟨?_, hsv.2.trans ?_⟩
  · simp only [fieldValues, filterMap_id_cons, List.filterMap_nil, List.append_nil, List.append_assoc, hid,
      Option.toList_none]
    rw [hts]
    iterate 3 apply inOrder_prepend
    exact inOrder_option (some ts) _ ts _ (by rintro v ⟨⟩; rfl) (inOrder_prepend _ _ _ hsv.1)
  · rw [← List.append_assoc]
    exact List.suffix_append _ _

/-- Which text a message was read from. -/
theorem parseSyslog_text (data : Bytes) :
    ∃ msg, parseSyslog data = .ok msg ∧ msg.raw = stripLineEnds data ∧
      (msg.protocol = .rfc5424 ∧ Text5424 (stripLineEnds data) msg ∨ msg.protocol = .rfc3164 ∧
        Text3164 (stripLineEnds data) msg ∨
          msg.protocol = .unknown ∧ fieldValues msg = [stripLineEnds data] ∧
          msg.message = stripLineEnds data) := by
  rcases parseSyslog_cases data with ⟨D, V, R, hform, msg, htry, hparse⟩ |
    ⟨D, ts, rest, hform, msg, htry, hparse⟩ | ⟨_, _, hparse⟩
  · obtain ⟨timestamp, hostname, appName, procId, msgId, message, tail, hacc, hR, htail⟩ :=
      tryRfc5424_accepts _ D V R hform
    rw [hacc] at htry
    cases htry
    exact ⟨_, hparse, rfl, .inl ⟨rfl, D, V, tail, hform.2.1, hform.2.2.1, by rw [hform.1, hR], htail⟩⟩
  · obtain ⟨hostname, sv, appName, procId, message, hacc, hhost, htag⟩ := tryRfc3164_accepts _ D ts rest hform
    rw [hacc] at htry
    cases htry
    exact ⟨_, hparse, rfl,
      .inr (.inl ⟨rfl, D, ts, rest, _, sv, hform.2.1, hform.2.2, rfl, rfl, hform.1, dropSpace_text rest,
        hhost, htag⟩)⟩
  · exact ⟨_, hparse, rfl, .inr (.inr ⟨rfl, rfl, rfl⟩)⟩

theorem parseSyslog_inOrder (data : Bytes) :
    ∃ msg, parseSyslog data = .ok msg ∧ msg.message <:+ stripLineEnds data ∧
    InOrder (fieldValues msg) (stripLineEnds data) := by
  obtain ⟨msg, hparse, -, ⟨-, htext⟩ | ⟨-, htext⟩ | ⟨-, hfields, hmessage⟩⟩ := parseSyslog_text data
  · obtain ⟨hord, hsuf⟩ := text5424_inOrder _ _ htext
    exact ⟨msg, hparse, hsuf, hord⟩
  · obtain ⟨hord, hsuf⟩ := text3164_inOrder _ _ htext
    exact ⟨msg, hparse, hsuf, hord⟩
  · rw [← hmessage] at hfields
    refine ⟨msg, hparse, ?_, ?_⟩
    · rw [hmessage]
    · rw [hfields]
      exact inOrder_last _ [] _ (by rw [hmessage]; rfl)

/-- **Parsing drops no content.** The fields put back with their separators are the datagram. -/
theorem parseSyslog_keeps_content (data : Bytes) :
    ∃ msg, parseSyslog data = .ok msg ∧ msg.raw = stripLineEnds data ∧
      (msg.protocol = .rfc5424 → Text5424 (stripLineEnds data) msg) ∧
      (msg.protocol = .rfc3164 → Text3164 (stripLineEnds data) msg) ∧
      msg.message <:+ stripLineEnds data ∧ InOrder (fieldValues msg) (stripLineEnds data) := by
  obtain ⟨msg, hparse, hraw, htext⟩ := parseSyslog_text data
  obtain ⟨msg', hparse', hsuf, hord⟩ := parseSyslog_inOrder data
  rw [hparse] at hparse'
  cases hparse'
  refine ⟨msg, hparse, hraw, fun h => ?_, fun h => ?_, hsuf, hord⟩
  · rcases htext with ⟨-, ht⟩ | ⟨hp, -⟩ | ⟨hp, -⟩
    · exact ht
    · cases hp.symm.trans h
    · cases hp.symm.trans h
  · rcases htext with ⟨hp, -⟩ | ⟨-, ht⟩ | ⟨hp, -⟩
    · cases hp.symm.trans h
    · exact ht
    · cases hp.symm.trans h

end Minilog.Parser
