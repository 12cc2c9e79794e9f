import Minilog.Parser.Grammar

/-! The two attempts of the parser, `tryRfc5424` and `tryRfc3164`: what each accepts, what it leaves
in the fields, and the text each field was read from. -/
namespace Minilog.Parser
open Lib Lib.View
set_option autoImplicit false

/-! ## The RFC 5424 version -/

theorem readVersion_form (pre a b : Bytes) (ver : ℕ) :
    readVersion (pre ++ (a ++ b)) a.length pre.length ver =
      .ok (a.foldl (fun v c => v * 10 + digitValue c) ver) := by
  induction a generalizing pre ver with
  | nil => rfl
  | cons c a ih =>
    have h := ih (pre ++ [c]) (ver * 10 + digitValue c)
    have hat : at_ (pre ++ (c :: a ++ b)) pre.length = .ok c := at_append pre (a ++ b) c
    simp only [List.append_assoc, List.singleton_append, List.length_append, List.length_singleton] at h
    rw [List.length_cons, readVersion, hat, ok_bind, List.foldl_cons]
    exact h

theorem isDigit_toNat (c : UInt8) (h : isDigit c = true) : 0x30 ≤ c.toNat ∧ c.toNat ≤ 0x39 := by
  simp only [isDigit, Bool.and_eq_true, decide_eq_true_eq, UInt8.le_iff_toNat_le] at h
  exact h

theorem version_one (V : Bytes) (hlen : 1 ≤ V.length ∧ V.length ≤ 2) (hdig : ∀ c ∈ V, isDigit c = true)
    (hval : decimal V = 1) : V = ascii "1" ∨ V = ascii "01" := by
  match V, hlen with
  | [x], _ =>
    have hx := isDigit_toNat x (hdig x (by simp))
    simp only [decimal, digitValue, List.foldl_cons, List.foldl_nil] at hval
    have : x = 0x31 := UInt8.toNat_inj.mp (by change x.toNat = 49; omega)
    exact .inl (by rw [this]; rfl)
  | [x, y], _ =>
    have hx := isDigit_toNat x (hdig x (by simp))
    have hy := isDigit_toNat y (hdig y (by simp))
    simp only [decimal, digitValue, List.foldl_cons, List.foldl_nil] at hval
    have hx' : x = 0x30 := UInt8.toNat_inj.mp (by change x.toNat = 48; omega)
    have hy' : y = 0x31 := UInt8.toNat_inj.mp (by change y.toNat = 49; omega)
    exact .inr (by rw [hx', hy']; rfl)

/-! ## The header fields -/

/-- A token, `-` being the nil value. -/
def nilable (tok : Bytes) : Option Bytes := if tok = ascii "-" then none else some tok

theorem parseNilable_token (tok rest : Bytes) (h : space ∉ tok) :
    parseNilable (tok ++ space :: rest) = .ok (nilable tok, rest) := by
  have hrest : removePrefix (tok ++ space :: rest) (tok.length + 1) = .ok rest := by
    have := removePrefix_append (tok ++ [space]) rest
    simpa using this
  rw [parseNilable, if_neg (by simp), find_append tok rest space h]
  simp only [substr_append, hrest, ok_bind, pure_eq_ok, nilable]
  split <;> rfl

theorem parseNilable_last (tok : Bytes) (hne : tok ≠ []) (h : space ∉ tok) :
    parseNilable tok = .ok (nilable tok, []) := by
  rw [parseNilable, if_neg hne, find_none tok space h]
  simp only [ok_bind, pure_eq_ok, nilable]
  split <;> rfl

theorem token_split (k : ℕ) (s : Bytes) (h : k + 1 ≤ s.count space) :
    ∃ a b, space ∉ a ∧ s = a ++ space :: b ∧ k ≤ b.count space := by
  rcases find_cases s space with ⟨_, hn⟩ | ⟨a, b, ha, hs, _⟩
  · rw [List.count_eq_zero_of_not_mem hn] at h
    omega
  · refine ⟨a, b, ha, hs, ?_⟩
    rw [hs, List.count_append, List.count_eq_zero_of_not_mem ha, List.count_cons_self] at h
    omega

/-- The bytes a header field was read from. -/
def fieldText : Option Bytes → Bytes
  | none => ascii "-"
  | some tok => tok

theorem fieldText_nilable (tok : Bytes) : fieldText (nilable tok) = tok := by
  unfold nilable
  split
  · next h => rw [h]; rfl
  · rfl

/-- The end of an RFC 5424 header: nothing after the fourth space, the last field alone, or the last
field, a space and the message. -/
def TailText (tail : Bytes) (msgId : Option Bytes) (message : Bytes) : Prop :=
  (tail = [] ∧ msgId = none ∧ message = []) ∨ (tail = fieldText msgId ∧ message = []) ∨
    tail = fieldText msgId ++ ascii " " ++ message

theorem parseNilable_tail (tail : Bytes) :
    ∃ msgId message, parseNilable tail = .ok (msgId, message) ∧ TailText tail msgId message := by
  rcases find_cases tail space with ⟨_, hn⟩ | ⟨a, b, ha, rfl, _⟩
  · by_cases hne : tail = []
    · exact ⟨none, [], by rw [hne]; rfl, .inl ⟨hne, rfl, rfl⟩⟩
    · exact ⟨_, _, parseNilable_last tail hne hn, .inr (.inl ⟨(fieldText_nilable tail).symm, rfl⟩)⟩
  · refine ⟨_, _, parseNilable_token a b ha, .inr (.inr ?_)⟩
    rw [fieldText_nilable]
    simp [ascii]

/-! ## The two attempts -/

/-- A message with its PRI and the names of its two halves. -/
def withPri (msg : SyslogMessage) (pri : ℕ) : SyslogMessage :=
  { msg with pri := some pri, facility := some (pri / 8), severity := some (pri % 8),
             facilityName := kFacilityNames[pri / 8]?, severityName := kSeverityNames[pri % 8]? }

theorem applyPri_eq (msg : SyslogMessage) (pri : ℕ) (h : pri ≤ 191) :
    applyPri msg pri = .ok (withPri msg pri) := by
  have hf : pri / 8 < kFacilityNames.length := by rw [kFacilityNames_length]; omega
  have hs : pri % 8 < kSeverityNames.length := by rw [kSeverityNames_length]; omega
  have hpri : ¬ 191 < pri := by omega
  simp only [applyPri, hpri, if_false, nameOf_eq _ _ _ hf, nameOf_eq _ _ _ hs, ok_bind, pure_eq_ok, withPri]

/-- The first attempt on a view already cut after its version digits. -/
theorem tryRfc5424_runs (data a b : Bytes) (pri : ℕ) (hp : parsePri data = some (pri, a ++ b))
    (ha : ∀ c ∈ a, isDigit c = true) (hb : ∀ c ∈ b.head?, isDigit c = false) :
    tryRfc5424 data =
      if a.length = 0 ∨ 2 < a.length then .ok none
      else
        match b with
        | [] => .ok none
        | c :: R =>
          if c ≠ space then .ok none
          else if decimal a ≠ 1 then .ok none
          else if R.count space < 4 then .ok none
          else fill5424 data pri (decimal a) R := by
  have hscan : scan isDigit (a ++ b) 0 = .ok a.length := by
    have h := scan_append isDigit [] a b ha hb
    simpa using h
  have hver : readVersion (a ++ b) a.length 0 0 = .ok (decimal a) := readVersion_form [] a b 0
  unfold tryRfc5424
  simp only [hp, hscan, ok_bind, pure_eq_ok]
  by_cases h1 : a.length = 0 ∨ 2 < a.length
  · rw [if_pos h1, if_pos h1]
  rw [if_neg h1, if_neg h1]
  cases b with
  | nil => simp [hasAt]
  | cons c R =>
    have hrest : removePrefix (a ++ c :: R) (a.length + 1) = .ok R := by
      have h := removePrefix_append (a ++ [c]) R
      simpa using h
    by_cases hc : c = space
    · subst hc
      simp [hasAt_append, hver, hrest]
    · simp [hasAt_append, hc]

/-- Four words with a space behind each, and the end of the header. -/
theorem fill5424_tail (data : Bytes) (pri ver : ℕ) (hpri : pri ≤ 191) (t h a p tail : Bytes)
    (msgId : Option Bytes) (message : Bytes) (ht : space ∉ t) (hh : space ∉ h) (ha : space ∉ a)
    (hp : space ∉ p) (htail : parseNilable tail = .ok (msgId, message)) :
    fill5424 data pri ver (t ++ space :: (h ++ space :: (a ++ space :: (p ++ space :: tail)))) =
      .ok (some { withPri { protocol := .rfc5424, raw := data } pri with
        version := some ver, timestamp := nilable t, hostname := nilable h, appName := nilable a, procId :=
        nilable p, msgId, message }) := by
  simp only [fill5424, parseNilable_token t _ ht, parseNilable_token h _ hh, parseNilable_token a _ ha,
    parseNilable_token p _ hp, htail, ok_bind, applyPri_eq _ _ hpri, pure_eq_ok]

theorem tryRfc5424_accepts (d D V R : Bytes) (h : Rfc5424Form d D V R) :
    ∃ timestamp hostname appName procId msgId message tail,
      tryRfc5424 d = .ok (some { withPri { protocol := .rfc5424, raw := d } (decimal D) with
        version := some 1, timestamp, hostname, appName, procId, msgId, message }) ∧
      R = fieldText timestamp ++ ascii " " ++ fieldText hostname ++ ascii " " ++ fieldText appName ++
        ascii " " ++ fieldText procId ++ ascii " " ++ tail ∧
      TailText tail msgId message := by
  obtain ⟨rfl, hD, hV, hR⟩ := h
  obtain ⟨data, hdata⟩ : ∃ data, data = ascii "<" ++ D ++ ascii ">" ++ V ++ ascii " " ++ R := ⟨_, rfl⟩
  have hpri : parsePri data = some (decimal D, V ++ space :: R) := by
    have h := parsePri_form D (V ++ space :: R) hD
    rw [hdata, ← h]
    simp [ascii]
  have hone : decimal V = 1 ∧ V.length ≤ 2 ∧ V.length ≠ 0 ∧ V.all (fun c => decide (isDigit c = true)) =
      true := by
    rcases hV with rfl | rfl <;> decide
  have htry := tryRfc5424_runs data V (space :: R) (decimal D) hpri (forall_mem_byte V _ hone.2.2.2)
    (by intro c hc; cases hc; rfl)
  rw [if_neg (by omega), hone.1] at htry
  simp only [ne_eq, not_true_eq_false, if_false, if_neg (Nat.not_lt.mpr hR)] at htry
  obtain ⟨t₁, R₁, ht₁, rfl, hR₁⟩ := token_split 3 R hR
  obtain ⟨t₂, R₂, ht₂, rfl, hR₂⟩ := token_split 2 R₁ hR₁
  obtain ⟨t₃, R₃, ht₃, rfl, hR₃⟩ := token_split 1 R₂ hR₂
  obtain ⟨t₄, tail, ht₄, rfl, _⟩ := token_split 0 R₃ hR₃
  obtain ⟨msgId, message, htail, hmsg⟩ := parseNilable_tail tail
  refine ⟨nilable t₁, nilable t₂, nilable t₃, nilable t₄, msgId, message, tail, ?_, ?_, hmsg⟩
  · rw [← hdata, htry]
    exact fill5424_tail data _ 1 hD.2.2.2 t₁ t₂ t₃ t₄ tail msgId message ht₁ ht₂ ht₃ ht₄ htail
  · simp only [fieldText_nilable]
    simp [ascii]

theorem tryRfc5424_refuses (d : Bytes) : tryRfc5424 d = .ok none ∨ ∃ D V R, Rfc5424Form d D V R := by
  rcases parsePri_refuses d with hp | ⟨D, sv, hD, rfl⟩
  · left
    simp [tryRfc5424, hp]
  obtain ⟨a, b, rfl, ha, hb⟩ := run_split isDigit sv
  rw [tryRfc5424_runs _ a b (decimal D) (parsePri_form D (a ++ b) hD) ha hb]
  by_cases h1 : a.length = 0 ∨ 2 < a.length
  · exact .inl (if_pos h1)
  rw [if_neg h1]
  cases b with
  | nil => exact .inl rfl
  | cons c R =>
    simp only
    by_cases hc : c = space
    · by_cases hv : decimal a = 1
      · by_cases hR : R.count space < 4
        · exact .inl (by simp [hc, hv, hR])
        · refine .inr ⟨D, a, R, ?_, hD, version_one a (by omega) ha hv, by omega⟩
          rw [hc]
          simp [ascii]
      · exact .inl (by simp [hc, hv])
    · exact .inl (if_pos hc)

/-! ### RFC 3164 -/

/-- The hostname and a space, or the hostname alone at the end. -/
def HostText (sv : Bytes) (hostname : Option Bytes) (rest : Bytes) : Prop :=
  (∃ host, hostname = some host ∧ sv = host ++ ascii " " ++ rest) ∨ (sv = hostname.getD [] ∧ rest = [])

theorem getD_nonEmpty (s : Bytes) : (nonEmpty s).getD [] = s := by
  unfold nonEmpty
  split
  · next h => rw [h]; rfl
  · rfl

theorem parse3164Hostname_word (host rest : Bytes) (h : space ∉ host) :
    parse3164Hostname (host ++ space :: rest) = .ok (some host, rest) := by
  have hrest : removePrefix (host ++ space :: rest) (host.length + 1) = .ok rest := by
    have h := removePrefix_append (host ++ [space]) rest
    simpa using h
  simp only [parse3164Hostname, find_append host rest space h, substr_append, hrest, ok_bind, pure_eq_ok]

theorem parse3164Hostname_text (sv : Bytes) :
    ∃ hostname rest, parse3164Hostname sv = .ok (hostname, rest) ∧ HostText sv hostname rest := by
  rcases find_cases sv space with ⟨hf, _⟩ | ⟨a, b, ha, rfl, _⟩
  · exact ⟨nonEmpty sv, [], by simp [parse3164Hostname, hf], .inr ⟨(getD_nonEmpty sv).symm, rfl⟩⟩
  · refine ⟨some a, b, parse3164Hostname_word a b ha, .inl ⟨a, rfl, ?_⟩⟩
    simp [ascii]

/-- An optional single space in front of a text. -/
def OptSpace (sv rest : Bytes) : Prop := sv = rest ∨ sv = ascii " " ++ rest

theorem dropSpace_text (sv : Bytes) : OptSpace sv (dropSpace sv) := by
  cases sv with
  | nil => exact .inl rfl
  | cons c sv =>
    by_cases hc : c = space
    · right
      simp [dropSpace, hc, ascii]
    · left
      simp [dropSpace, hc]

/-- A tag `T ':'` with `T = app` or `T = app '[' pid ']'`, or no tag at all. -/
def TagText (sv : Bytes) (app pid : Option Bytes) (message : Bytes) : Prop :=
  (app = none ∧ pid = none ∧ message = sv) ∨
    ∃ T after, sv = T ++ ascii ":" ++ after ∧ OptSpace after message ∧ space ∉ T ∧ 0x3A ∉ T ∧
      ((T = app.getD [] ∧ pid = none) ∨
        (T = app.getD [] ++ ascii "[" ++ pid.getD [] ++ ascii "]" ∧ 0x5B ∉ app.getD []))

/-- Past the colon: what is left to decide is whether the tag has brackets. -/
theorem parse3164Tag_colon (T rest : Bytes) (hsp : space ∉ T) (hcolon : 0x3A ∉ T) :
    parse3164Tag (T ++ 0x3A :: rest) =
      match find T 0x5B with
      | none => .ok (nonEmpty T, none, dropSpace rest)
      | some bracket => do
        if (← back T) = 0x5D then
          let app ← substr T 0 bracket
          let pid ← substr T (bracket + 1) (T.length - bracket - 2)
          return (nonEmpty app, nonEmpty pid, dropSpace rest)
        else return (nonEmpty T, none, dropSpace rest) := by
  have hfind := find_append T rest 0x3A hcolon
  have hlate : ¬ ((find (T ++ 0x3A :: rest) space).any fun i => decide (i < T.length)) = true := by
    rcases find_cases (T ++ 0x3A :: rest) space with ⟨hnone, _⟩ | ⟨a, b, ha, hab, hsome⟩
    · simp [hnone]
    · -- a space in front of the colon would be one of the tag
      simp only [hsome, Option.any_some, decide_eq_true_eq, not_lt]
      by_contra hlt
      have hall : a ++ [space] <+: T ++ 0x3A :: rest := ⟨b, by rw [hab]; simp⟩
      have hpre : a ++ [space] <+: T := by
        apply List.prefix_of_prefix_length_le hall (List.prefix_append _ _)
        simp only [List.length_append, List.length_singleton]
        omega
      exact hsp (hpre.subset (by simp))
  have htag : substr (T ++ 0x3A :: rest) 0 T.length = .ok T := substr_append T _
  have hrest : removePrefix (T ++ 0x3A :: rest) (T.length + 1) = .ok rest := by
    have h := removePrefix_append (T ++ [0x3A]) rest
    simpa using h
  cases hopen : find T 0x5B with
  | none => simp only [parse3164Tag, hfind, if_neg hlate, htag, hrest, hopen, ok_bind, pure_eq_ok]
  | some bracket => simp only [parse3164Tag, hfind, if_neg hlate, htag, hrest, hopen, ok_bind, pure_eq_ok]

/-- A tag in brackets is taken apart there. -/
theorem parse3164Tag_brackets (app pid rest : Bytes) (happ : 0x5B ∉ app)
    (hsp : space ∉ app ++ 0x5B :: (pid ++ [0x5D])) (hcolon : 0x3A ∉ app ++ 0x5B :: (pid ++ [0x5D])) :
    parse3164Tag (app ++ 0x5B :: (pid ++ [0x5D]) ++ 0x3A :: rest) = .ok (nonEmpty app, nonEmpty pid,
      dropSpace rest) := by
  obtain ⟨T, hT⟩ : ∃ T, T = app ++ 0x5B :: (pid ++ [0x5D]) := ⟨_, rfl⟩
  have hfind : find T 0x5B = some app.length := by
    rw [hT]
    exact find_append app _ 0x5B happ
  have hback : back T = .ok 0x5D := by
    rw [hT, ← List.cons_append, ← List.append_assoc]
    exact back_append _ _
  have hsub : substr T 0 app.length = .ok app := by
    rw [hT]
    exact substr_append app _
  have hpid : substr T (app.length + 1) (T.length - app.length - 2) = .ok pid := by
    have hcut := substr_cut (app ++ [0x5B]) (pid ++ [0x5D]) pid.length
    have hlen : T.length - app.length - 2 = pid.length := by
      rw [hT]
      simp only [List.length_append, List.length_cons, List.length_nil]
      omega
    rw [List.take_left, List.length_append, List.length_singleton, List.append_assoc, List.singleton_append,
      ← hT] at hcut
    rw [hlen, hcut]
  rw [← hT] at hsp hcolon ⊢
  rw [parse3164Tag_colon T rest hsp hcolon, hfind]
  simp only [hback, hsub, hpid, ok_bind, if_true, pure_eq_ok]

/-- A tag that does not end in a bracket, or has none, is the name of the application. -/
theorem parse3164Tag_plain (T rest : Bytes) (hsp : space ∉ T) (hcolon : 0x3A ∉ T)
    (hplain : 0x5B ∉ T ∨ ∃ c, back T = .ok c ∧ c ≠ 0x5D) :
    parse3164Tag (T ++ 0x3A :: rest) = .ok (nonEmpty T, none, dropSpace rest) := by
  rw [parse3164Tag_colon T rest hsp hcolon]
  rcases find_cases T 0x5B with ⟨hnone, _⟩ | ⟨app, r, _, hT, hsome⟩
  · rw [hnone]
  · rw [hsome]
    rcases hplain with hno | ⟨c, hback, hc⟩
    · exact absurd (by rw [hT]; simp) hno
    · simp only [hback, ok_bind, if_neg hc, pure_eq_ok]

theorem parse3164Tag_text (sv : Bytes) :
    ∃ app pid message, parse3164Tag sv = .ok (app, pid, message) ∧ TagText sv app pid message := by
  rcases find_cases sv 0x3A with ⟨hf, _⟩ | ⟨T, after, hT, hs, hf⟩
  · exact ⟨none, none, sv, by simp [parse3164Tag, hf], .inl ⟨rfl, rfl, rfl⟩⟩
  by_cases hsp : (find sv space).any (fun i => i < T.length) = true
  · exact ⟨none, none, sv, by simp [parse3164Tag, hf, hsp], .inl ⟨rfl, rfl, rfl⟩⟩
  -- the first space, if any, stands after the colon
  have hTsp : space ∉ T := by
    intro hmem
    obtain ⟨a, b, hab, ha⟩ := List.eq_append_cons_of_mem hmem
    apply hsp
    rw [hs, hab, List.append_assoc, List.cons_append, find_append a _ space ha]
    simp
  have hsv : sv = T ++ ascii ":" ++ after := by rw [hs]; simp [ascii]
  have hwhole : TagText sv (nonEmpty T) none (dropSpace after) :=
    .inr ⟨T, after, hsv, dropSpace_text after, hTsp, hT, .inl ⟨(getD_nonEmpty T).symm, rfl⟩⟩
  rcases find_cases T 0x5B with ⟨_, hno⟩ | ⟨app, r, happ, hTr, _⟩
  · exact ⟨nonEmpty T, none, dropSpace after, by rw [hs, parse3164Tag_plain T after hTsp hT (.inl hno)], hwhole⟩
  · obtain ⟨l, e, hle⟩ : ∃ l e, T = l ++ [e] := by
      have hne : T ≠ [] := by rw [hTr]; simp
      exact ⟨T.dropLast, T.getLast hne, (List.dropLast_append_getLast hne).symm⟩
    have hback : back T = .ok e := by rw [hle]; exact back_append l e
    by_cases he : e = 0x5D
    · -- the bracket and the last byte are different bytes, so at least two bytes follow `app`
      obtain ⟨pid, hpid⟩ : ∃ pid, r = pid ++ [0x5D] := by
        have hlast : (app ++ 0x5B :: r).getLast? = some 0x5D := by rw [← hTr, hle, he]; simp
        rw [List.getLast?_append, List.getLast?_cons] at hlast
        have hr : r ≠ [] := by rintro rfl; simp at hlast
        refine ⟨r.dropLast, ?_⟩
        have hlast' : r.getLast hr = 0x5D := by
          rw [List.getLast?_eq_getLast_of_ne_nil hr] at hlast
          simpa using hlast
        rw [← hlast', List.dropLast_append_getLast hr]
      have hTpid : T = app ++ ascii "[" ++ pid ++ ascii "]" := by rw [hTr, hpid]; simp [ascii]
      refine ⟨nonEmpty app, nonEmpty pid, dropSpace after, ?_,
        .inr ⟨T, after, hsv, dropSpace_text after, hTsp, hT, ?_⟩⟩
      · rw [hpid] at hTr
        rw [hs, hTr]
        exact parse3164Tag_brackets app pid after happ (hTr ▸ hTsp) (hTr ▸ hT)
      · rw [getD_nonEmpty, getD_nonEmpty]
        exact .inr ⟨hTpid, happ⟩
    · exact ⟨nonEmpty T, none, dropSpace after,
        by rw [hs, parse3164Tag_plain T after hTsp hT (.inr ⟨e, hback, he⟩)], hwhole⟩

theorem tryRfc3164_accepts (d D ts rest : Bytes) (h : Rfc3164Form d D ts rest) :
    ∃ hostname sv appName procId message,
      tryRfc3164 d = .ok (some { withPri { protocol := .rfc3164, raw := d } (decimal D) with
        timestamp := some ts, hostname, appName, procId, message }) ∧
      HostText (dropSpace rest) hostname sv ∧ TagText sv appName procId message := by
  obtain ⟨hd, hD, hts⟩ := h
  have hpri : parsePri d = some (decimal D, ts ++ rest) := by
    rw [hd, List.append_assoc _ ts rest]
    exact parsePri_form D (ts ++ rest) hD
  obtain ⟨hostname, sv, hhost, hhostText⟩ := parse3164Hostname_text (dropSpace rest)
  obtain ⟨appName, procId, message, htag, htagText⟩ := parse3164Tag_text sv
  refine ⟨hostname, sv, appName, procId, message, ?_, hhostText, htagText⟩
  simp only [tryRfc3164, hpri, parse3164Timestamp_form ts rest hts, ok_bind, hhost, htag,
    applyPri_eq _ _ hD.2.2.2, pure_eq_ok]

theorem tryRfc3164_refuses (d : Bytes) : tryRfc3164 d = .ok none ∨ ∃ D ts rest, Rfc3164Form d D ts rest := by
  rcases parsePri_refuses d with hp | ⟨D, sv, hD, rfl⟩
  · left
    simp [tryRfc3164, hp]
  rcases parse3164Timestamp_refuses sv with ht | ⟨ts, rest, hts, rfl⟩
  · left
    rw [tryRfc3164, parsePri_form D sv hD]
    simp only [ht, ok_bind]
    rfl
  · right
    refine ⟨D, ts, rest, ?_, hD, hts⟩
    simp only [List.append_assoc]

end Minilog.Parser
