import Minilog.Lib.ConfigItems
import Minilog.Server.Ini

/-! The cli-viewer's reading of the server's configuration file (`parse_server_config`), and when it agrees
with the server's.

The viewer leaves the file to `ConfigParser`, whose grammar is not the server's. `Stated` says of a text that
the lines of a section say the path in that grammar too, as they do wherever the two grammars see the same
lines, names and sections (`Agrees`). What a `%` in a value does comes on top of that. -/
namespace Minilog.Cli
open Lib Lib.ConfigParser
set_option autoImplicit false

variable (lower : Bytes → Bytes) (str : ConfigError → Bytes)

/-- `parse_server_config`, from the text of the file on: the path, or the lines on stderr where the source
returns `None`. -/
def parseServerConfig (configPath outputSection text : Bytes) : Except (List Bytes) Bytes :=
  match read lower text with
  | .error e => .error [ascii "Error parsing server config: " ++ str e]
  | .ok config =>
    let sectionName := ascii "output." ++ outputSection
    if sectionName ∉ config.sections then
      .error [ascii "Error: output section '" ++ outputSection ++ ascii "' not found in " ++ configPath,
        ascii "Available sections: " ++
          (ascii ", ").intercalate (config.sections.filter fun s => (ascii "output.").isPrefixOf s)]
    else if config.raw sectionName (lower (ascii "jsonl_file")) = none then
      .error [ascii "Error: jsonl_file not configured in [" ++ sectionName ++ ascii "]"]
    else
      match config.get lower sectionName (ascii "jsonl_file") with
      | .ok path => .ok path
      | .error e => .error [ascii "Error parsing server config: " ++ str e]

/-! ## Where the grammars agree -/

/-- The lines of the text as the server sees them, without white space at the ends. -/
def content (text : Bytes) : List Bytes := ((scanLines text).map Server.trim).filter isContent

def isHeader (line : Bytes) : Bool := line.head? == some Server.leftBracket

def namesPath (line : Bytes) : Bool :=
  match Server.iniLine line with
  | .pair key _ => key == ascii "jsonl_file"
  | _ => false

/-- What a line is to `ConfigParser` it is to the server, as far as one section goes. -/
structure Agrees (text sectionName : Bytes) : Prop where
  lines : ((textLines text).map strip).filter isContent = content text
  headers : ∀ line ∈ content text, isHeader line = true → (sectcre line).isSome = true
  named : ∀ line ∈ content text, Server.iniLine line = .header sectionName → sectcre line = some sectionName
  more : ∀ sec name line, .more sec name line ∈ fileItems lower text →
    isHeader line = false ∧ (sec = sectionName → name ≠ ascii "jsonl_file" ∧ namesPath line = false)

def pathKey : Bytes := ascii "jsonl_file"

/-- To `ConfigParser` there is a header of the section, and the option below it has this line as its value and
no more lines with content; or the section has no such option, and the defaults have it. -/
structure Stated (text sectionName path : Bytes) : Prop where
  header : .header sectionName ∈ fileItems lower text
  option : Stands (sectionName, pathKey) (fileItems lower text) path [] ∨
    (sectionName, pathKey) ∉ (fileItems lower text).filterMap Item.optionName ∧
      Stands (defaultSection, pathKey) (fileItems lower text) path []

/-- The option with the path, wherever the section has it from, has no percent sign. -/
def OwnPlain (text sectionName : Bytes) : Prop :=
  ∀ sec, sec = sectionName ∨ sec = defaultSection ∧
      (sectionName, pathKey) ∉ (fileItems lower text).filterMap Item.optionName →
    ∀ value more, Stands (sec, pathKey) (fileItems lower text) value more →
      percent ∉ value ∧ ∀ l ∈ more, percent ∉ l

/-- In the section and the defaults, there are percent signs in the path only. -/
def OthersPlain (text sectionName path : Bytes) : Prop :=
  ∀ sec, sec = sectionName ∨ sec = defaultSection → ∀ name value more,
    Stands (sec, name) (fileItems lower text) value more →
    (percent ∈ value → name = pathKey ∧ value = path) ∧ ∀ l ∈ more, percent ∉ l

/-! ## The line with the path -/

theorem asciiBlank (c : UInt8) (h : Server.isSpace c = true) : AsciiBlank c :=
  forall_byte (fun c => Server.isSpace c = true → AsciiBlank c) (by unfold AsciiBlank; decide +kernel) c h

theorem isSpace_delimiter (c : UInt8) (h : Server.isSpace c = true) : isDelimiter c = false :=
  forall_byte (fun c => Server.isSpace c = true → isDelimiter c = false) (by decide +kernel) c h

theorem optcre_of (a rest : Bytes) (ha : ∀ c ∈ a, isDelimiter c = false) :
    optcre (a ++ Server.equalsSign :: rest) = some (rstrip a, lstrip rest) := by
  have hall : ∀ c ∈ a, (!isDelimiter c) = true := fun c hc => by rw [ha c hc]; rfl
  unfold optcre
  rw [List.dropWhile_append_of_pos hall, List.dropWhile_cons_of_neg (by decide),
    List.takeWhile_append_of_pos hall, List.takeWhile_cons_of_neg (by decide), List.append_nil]

/-- The value has no white space at its ends for either reader. -/
theorem strip_value (rest : Bytes) (hrest : rstrip rest = rest)
    (habs : Server.isAbsolute (Server.trim rest) = true) :
    strip (lstrip rest) = Server.trim rest ∧ rstrip (Server.trim rest) = Server.trim rest := by
  obtain ⟨a, b, hsplit, ha, hb⟩ := Server.trim_split rest
  generalize Server.trim rest = value at hsplit habs
  have hhead : ∃ v, value = 0x2F :: v := by
    cases value with
    | nil => cases habs
    | cons c v =>
      have hc : c = 0x2F := by simpa [Server.isAbsolute] using habs
      exact ⟨v, by rw [hc]⟩
  obtain ⟨v, rfl⟩ := hhead
  have hslash : Visible 0x2F := by unfold Visible; decide
  -- nothing stands behind the value
  have hend : rstrip (0x2F :: v ++ b) = 0x2F :: v ++ b := rstrip_suffix a _ (by rw [← hsplit]; exact hrest)
  have hcut : rstrip (0x2F :: v) = 0x2F :: v ++ b := by
    rw [← rstrip_append _ b fun c hc => asciiBlank c (hb c hc), hend]
  obtain ⟨w, hw, -⟩ := rstrip_split (0x2F :: v)
  have hb0 : b = [] := by
    have hlen := congrArg List.length hw
    rw [hcut, List.length_append, List.length_append] at hlen
    exact List.length_eq_zero_iff.mp (by omega)
  rw [hb0, List.append_nil] at hcut hsplit
  have hfront : lstrip rest = 0x2F :: v := by
    rw [hsplit]
    exact lstrip_ascii a (fun c hc => asciiBlank c (ha c hc)) _ v hslash
  refine ⟨?_, hcut⟩
  rw [strip, hfront, hcut]
  exact lstrip_ascii [] (fun _ hc => (by cases hc)) _ v hslash

/-- A line that names the path to the server names it to `ConfigParser`. -/
theorem optcre_name (line value : Bytes) (htrim : Server.trim line = line)
    (hpair : Server.iniLine line = .pair (ascii "jsonl_file") value) :
    ∃ a rest, line = a ++ Server.equalsSign :: rest ∧ value = Server.trim rest ∧
      optcre line = some (ascii "jsonl_file", lstrip rest) := by
  obtain ⟨a, rest, hline, -, hkey, rfl, -⟩ := Server.iniLine_pair line _ value hpair
  rw [htrim] at hline
  obtain ⟨b, w, hsplit, hb, hw⟩ := Server.trim_split a
  rw [← hkey] at hsplit
  -- the line is trimmed, so its key is in front
  have hb0 : b = [] := by
    cases b with
    | nil => rfl
    | cons c b =>
      have hhead := Server.trim_head line c (by rw [htrim, hline, hsplit]; rfl)
      rw [hb c List.mem_cons_self] at hhead
      cases hhead
  rw [hb0, List.nil_append] at hsplit
  have hplain : ∀ c ∈ a, isDelimiter c = false := by
    intro c hc
    rw [hsplit] at hc
    rcases List.mem_append.mp hc with hc | hc
    · exact (by decide +kernel : ∀ c ∈ ascii "jsonl_file", isDelimiter c = false) c hc
    · exact isSpace_delimiter c (hw c hc)
  have hname : rstrip a = ascii "jsonl_file" := by
    rw [hsplit, rstrip_append _ w fun c hc => asciiBlank c (hw c hc)]
    exact rstrip_visible _ (by unfold Visible; decide +kernel)
  refine ⟨a, rest, hline, rfl, ?_⟩
  rw [hline, optcre_of a rest hplain, hname]

theorem optcre_path (line value : Bytes) (htrim : Server.trim line = line) (hstrip : rstrip line = line)
    (hpair : Server.iniLine line = .pair (ascii "jsonl_file") value) (habs : Server.isAbsolute value = true) :
    ∃ val, optcre line = some (ascii "jsonl_file", val) ∧ strip val = value ∧ rstrip value = value := by
  obtain ⟨a, rest, hline, rfl, hopt⟩ := optcre_name line value htrim hpair
  have hrest : rstrip rest = rest := by
    refine rstrip_suffix (a ++ [Server.equalsSign]) rest ?_
    rw [List.append_assoc, List.singleton_append, ← hline, hstrip]
  obtain ⟨hval, hrstrip⟩ := strip_value rest hrest habs
  exact ⟨lstrip rest, hopt, hval, hrstrip⟩

/-! ## Line by line -/

def contentOf (raw : List Bytes) : List Bytes := (raw.map strip).filter isContent

theorem contentOf_cons (line : Bytes) (raw : List Bytes) (h : isContent (strip line) = true) :
    contentOf (line :: raw) = strip line :: contentOf raw := List.filter_cons_of_pos h

theorem contentOf_skip (line : Bytes) (raw : List Bytes) (h : isContent (strip line) = false) :
    contentOf (line :: raw) = contentOf raw := List.filter_cons_of_neg (by rw [h]; exact Bool.false_ne_true)

theorem contentOf_subset (line : Bytes) (raw : List Bytes) : contentOf raw ⊆ contentOf (line :: raw) := by
  cases h : isContent (strip line) with
  | true =>
    rw [contentOf_cons line raw h]
    exact List.subset_cons_self _ _
  | false =>
    rw [contentOf_skip line raw h]
    exact List.Subset.refl _

/-- A line with content is not blank to the server either. -/
theorem iniLine_content (l : Bytes) (htrim : Server.trim l = l) (h : isContent l = true) :
    Server.iniLine l ≠ .blank := by
  obtain ⟨hne, hcomment⟩ := (isContent_iff l).mp h
  unfold Server.iniLine
  rw [htrim]
  cases l with
  | nil => exact absurd rfl hne
  | cons c t =>
    have hc : ¬(c = Server.semicolon ∨ c = Server.hash) := by
      rintro (rfl | rfl)
      · cases hcomment
      · cases hcomment
    rw [Server.iniTrimmed, if_neg hc]
    split_ifs <;> exact fun h => by cases h

/-- The path has been read: empty lines may have come after it. -/
def HasPath (sectionName path : Bytes) (r : Reader) : Prop :=
  sectionName ∈ r.sections ∧ rstrip path = path ∧
    ∃ k, r.options.lookup (sectionName, ascii "jsonl_file") = some (path :: List.replicate k [])

/-- `ConfigParser` and the server behind the same lines, as far as one section goes. -/
structure Keeps (sectionName : Bytes) (ini : Server.Ini) (r : Reader) : Prop where
  inside : ∀ p ∈ ini.opened, p.1 = sectionName → r.cursect = some sectionName ∧ sectionName ∈ r.sections
  path : ∀ node, (sectionName, node) ∈ ini.closed ++ ini.opened.toList → ∀ path,
    node.get (ascii "jsonl_file") = some path →
    Server.isAbsolute path = true → HasPath sectionName path r

/-- What `Agrees` says about the lines that are left. -/
structure Fits (sectionName : Bytes) (r : Reader) (raw : List Bytes) : Prop where
  trimmed : ∀ line ∈ contentOf raw, Server.trim line = line
  headers : ∀ line ∈ contentOf raw, isHeader line = true → (sectcre line).isSome = true
  named : ∀ line ∈ contentOf raw, Server.iniLine line = .header sectionName → sectcre line = some sectionName
  more : ∀ sec name line, .more sec name line ∈ itemsFrom lower r raw →
    isHeader line = false ∧ (sec = sectionName → name ≠ ascii "jsonl_file" ∧ namesPath line = false)

section Step

variable {sectionName : Bytes} {ini ini' : Server.Ini} {r r' : Reader} {line : Bytes} {raw : List Bytes}
  {item : Option Item}

theorem Fits.tail (h : Fits lower sectionName r (line :: raw)) (htook : Took lower r line item r') :
    Fits lower sectionName r' raw := by
  refine ⟨fun l hl => h.trimmed l (contentOf_subset line raw hl),
    fun l hl => h.headers l (contentOf_subset line raw hl),
    fun l hl => h.named l (contentOf_subset line raw hl), fun sec name l hl => h.more sec name l ?_⟩
  rw [htook.items]
  exact List.mem_append_right _ hl

/-- An empty line behind the path, or any line behind something else. -/
theorem HasPath.append {path : Bytes} (h : HasPath sectionName path r) (value : Bytes)
    (hvalue : value = [] ∨ ¬(r.cursect = some sectionName ∧ r.optname = ascii "jsonl_file")) :
    HasPath sectionName path (r.append value) := by
  obtain ⟨hmem, hstrip, k, hk⟩ := h
  refine ⟨(append_same r value).1 ▸ hmem, hstrip, ?_⟩
  rw [append_lookup, hk, Option.map_some]
  split
  · next hat =>
    rcases hvalue with rfl | hother
    · exact ⟨k + 1, by rw [List.replicate_succ', List.cons_append]⟩
    · exact absurd hat.2 hother
  · exact ⟨k, rfl⟩

theorem Keeps.append (h : Keeps sectionName ini r) (value : Bytes)
    (hvalue : value = [] ∨ ¬(r.cursect = some sectionName ∧ r.optname = ascii "jsonl_file")) :
    Keeps sectionName ini (r.append value) := by
  obtain ⟨hsections, hcursect, -⟩ := append_same r value
  refine ⟨fun p hp heq => ?_, fun node hmem path hget habs =>
    (h.path node hmem path hget habs).append value hvalue⟩
  rw [hcursect, hsections]
  exact h.inside p hp heq

/-- A new option is no other. -/
theorem HasPath.option {path : Bytes} (h : HasPath sectionName path r) (e : (Bytes × Bytes) × List Bytes)
    (optname : Bytes) (level : ℕ) :
    HasPath sectionName path { r with
      options := r.options ++ [e], optname := optname, indentLevel := level } := by
  obtain ⟨hmem, hstrip, k, hk⟩ := h
  exact ⟨hmem, hstrip, k, by rw [List.lookup_append, hk, Option.some_or]⟩

theorem Keeps.option (h : Keeps sectionName ini r) (e : (Bytes × Bytes) × List Bytes) (optname : Bytes)
    (level : ℕ) :
    Keeps sectionName ini { r with options := r.options ++ [e], optname := optname, indentLevel := level } :=
  ⟨h.inside, fun node hmem path hget habs => (h.path node hmem path hget habs).option e optname level⟩

/-- A key before the first section is a node without keys. -/
theorem Keeps.alone (h : Keeps sectionName ini r) (hnone : ini.opened = none) (key value : Bytes) :
    Keeps sectionName { ini with closed := ini.closed ++ [(key, { data := value })] } r := by
  refine ⟨h.inside, fun node hmem path hget habs => ?_⟩
  rw [hnone, Option.toList_none, List.append_nil, List.mem_append, List.mem_singleton] at hmem
  rcases hmem with hmem | hmem
  · exact h.path node (List.mem_append_left _ hmem) path hget habs
  · cases hmem
    cases hget

/-- A key in a section: only the path of the section counts. -/
theorem Keeps.push (h : Keeps sectionName ini r) (name : Bytes) (node : Server.Node)
    (hsome : ini.opened = some (name, node)) (key value : Bytes) (hnew : key ∉ node.keys.map Prod.fst)
    (hpath : name = sectionName → key = ascii "jsonl_file" → Server.isAbsolute value = true →
      HasPath sectionName value r) :
    Keeps sectionName { ini with opened := some (name, node.push key value) } r := by
  refine ⟨fun q hq heq => ?_, fun n hmem path hget habs => ?_⟩
  · cases hq
    exact h.inside _ hsome heq
  · rw [List.mem_append, Option.toList_some, List.mem_singleton] at hmem
    rcases hmem with hmem | hmem
    · exact h.path n (List.mem_append_left _ hmem) path hget habs
    · cases hmem
      by_cases hkey : key = ascii "jsonl_file"
      · rw [hkey] at hnew hget
        rw [Server.Node.get_push node _ value hnew] at hget
        cases hget
        exact hpath rfl hkey habs
      · rw [Server.Node.get_push_other _ _ _ _ (Ne.symm hkey)] at hget
        exact h.path node (List.mem_append_right _ (by rw [hsome]; exact List.mem_singleton_self _)) path
          hget habs

/-- A header for both. -/
theorem Keeps.header (h : Keeps sectionName ini r) (hdefault : sectionName ≠ defaultSection)
    (name header : Bytes) (level : ℕ) (hsame : name = sectionName → header = sectionName) :
    Keeps sectionName ⟨ini.flush, some (name, {})⟩ { r with
      sections := if header = defaultSection then r.sections else r.sections ++ [header]
      cursect := some header
      optname := []
      indentLevel := level } := by
  refine ⟨fun p hp heq => ?_, fun node hmem path hget habs => ?_⟩
  · cases hp
    cases hsame heq
    dsimp only
    rw [if_neg hdefault]
    exact ⟨rfl, List.mem_append_right _ (List.mem_singleton_self _)⟩
  · rcases List.mem_append.mp hmem with hmem | hmem
    · obtain ⟨hin, hstrip, k, hpath⟩ := h.path node (Server.mem_of_mem_flush ini _ hmem) path hget habs
      refine ⟨?_, hstrip, k, hpath⟩
      dsimp only
      split
      · exact hin
      · exact List.mem_append_left _ hin
    · rw [Option.toList_some, List.mem_singleton] at hmem
      cases hmem
      cases hget

theorem namesPath_of (l value : Bytes) (h : Server.iniLine l = .pair (ascii "jsonl_file") value) :
    namesPath l = true := by
  rw [namesPath, h]
  exact beq_self_eq_true _

/-- A line with content takes both readers on. -/
theorem Keeps.content (h : Keeps sectionName ini r) (hf : Fits lower sectionName r (line :: raw))
    (htook : Took lower r line item r') (hline : isContent (strip line) = true)
    (hdefault : sectionName ≠ defaultSection) (hlower : lower (ascii "jsonl_file") = ascii "jsonl_file")
    (hstep : ini.line (strip line) = some ini') :
    Keeps sectionName ini' r' := by
  have hmem : strip line ∈ contentOf (line :: raw) := by
    rw [contentOf_cons line raw hline]
    exact List.mem_cons_self
  have htrim : Server.trim (strip line) = strip line := hf.trimmed _ hmem
  have hbracket : ∀ name, Server.iniLine (strip line) = .header name → isHeader (strip line) = true := by
    intro name hl
    have hhead := Server.iniLine_header _ name hl
    rw [htrim] at hhead
    rw [isHeader, hhead]
    rfl
  have hno : ∀ key value, Server.iniLine (strip line) = .pair key value → sectcre (strip line) = none := by
    intro key value hl
    obtain ⟨-, -, -, -, -, -, hne⟩ := Server.iniLine_pair _ key value hl
    rw [htrim] at hne
    exact sectcre_none _ hne
  cases htook with
  | comment hcomment =>
    rw [not_content_comment hcomment] at hline
    cases hline
  | blank hblank =>
    rw [not_content_blank hblank] at hline
    cases hline
  | more sec _ hsec hopt hlevel =>
    have hmore := hf.more sec r.optname (strip line) (by
      rw [Took.items lower (.more sec hline hsec hopt hlevel)]
      exact List.mem_cons_self)
    have hother : ¬(r.cursect = some sectionName ∧ r.optname = ascii "jsonl_file") := by
      rintro ⟨hcur, hname⟩
      rw [hsec] at hcur
      exact (hmore.2 (Option.some.inj hcur)).1 hname
    have h' := h.append (strip line) (.inr hother)
    rcases Server.line_cases ini ini' _ hstep with ⟨hl, -⟩ | ⟨name, hl, -, -⟩ |
      ⟨key, value, hl, hnone, -, rfl⟩ | ⟨key, value, name, node, hl, hsome, hnew, rfl⟩
    · exact absurd hl (iniLine_content _ htrim hline)
    · exact absurd (hbracket name hl) (by rw [hmore.1]; exact Bool.false_ne_true)
    · exact h'.alone hnone key value
    · refine h'.push name node hsome key value hnew fun hname hkey _ => ?_
      rw [hkey] at hl
      have hcur := (h.inside _ hsome hname).1
      rw [hsec] at hcur
      exact absurd (namesPath_of _ value hl)
        (by rw [(hmore.2 (Option.some.inj hcur)).2]; exact Bool.false_ne_true)
  | header name _ _ hname _ =>
    rcases Server.line_cases ini ini' _ hstep with ⟨hl, -⟩ | ⟨name', hl, -, rfl⟩ | ⟨key, value, hl, -⟩ |
      ⟨key, value, _, _, hl, -⟩
    · exact absurd hl (iniLine_content _ htrim hline)
    · refine h.header hdefault name' name _ fun heq => ?_
      have hsame := hf.named _ hmem (by rw [hl, heq])
      rw [hname] at hsame
      exact Option.some.inj hsame
    · rw [hno key value hl] at hname
      cases hname
    · rw [hno key value hl] at hname
      cases hname
  | option sec name val _ _ hnone hsec hopt _ hfresh =>
    have h' := h.option ((sec, lower name), [strip val]) (lower name) (indent line)
    rcases Server.line_cases ini ini' _ hstep with ⟨hl, -⟩ | ⟨name', hl, -, rfl⟩ |
      ⟨key, value, hl, hno, -, rfl⟩ | ⟨key, value, name', node, hl, hsome, hnew, rfl⟩
    · exact absurd hl (iniLine_content _ htrim hline)
    · have hsome := hf.headers _ hmem (hbracket name' hl)
      rw [hnone] at hsome
      cases hsome
    · exact h'.alone hno key value
    · refine h'.push name' node hsome key value hnew fun hname hkey habs => ?_
      rw [hkey] at hl
      obtain ⟨hcur, hin⟩ := h.inside _ hsome hname
      rw [hsec] at hcur
      cases hcur
      obtain ⟨val', hval, hpath, hrstrip⟩ := optcre_path _ value htrim (rstrip_strip line) hl habs
      rw [hopt] at hval
      cases hval
      refine ⟨hin, hrstrip, 0, ?_⟩
      rw [hlower] at hfresh
      rw [List.lookup_append, Server.lookup_none _ _ hfresh, Option.none_or, hlower, List.lookup_cons_self,
        hpath, List.replicate_zero]

theorem Keeps.run (raw : List Bytes) (fin : Server.Ini) (h : Keeps sectionName ini r) (hs : Sound r)
    (hf : Fits lower sectionName r raw) (hdefault : sectionName ≠ defaultSection)
    (hlower : lower (ascii "jsonl_file") = ascii "jsonl_file")
    (hrun : exec Server.Ini.line ini (contentOf raw) = some fin) (hread : readLines lower r raw = .ok r')
    (hclean : r'.bogus = []) : Keeps sectionName fin r' := by
  induction raw generalizing ini r with
  | nil =>
    cases hrun
    cases hread
    exact h
  | cons line raw ih =>
    obtain ⟨r₁, hline, hrest⟩ := bind_eq_ok _ _ _ hread
    obtain ⟨item, htook⟩ := took lower hs.idle hline
      (List.prefix_nil.mp (hclean ▸ readLines_bogus lower raw hrest))
    cases hcontent : isContent (strip line) with
    | true =>
      rw [contentOf_cons line raw hcontent] at hrun
      cases hstep : ini.line (strip line) with
      | none =>
        rw [exec, hstep] at hrun
        cases hrun
      | some ini' =>
        rw [exec_cons _ _ _ _ _ hstep] at hrun
        exact ih (h.content lower hf htook hcontent hdefault hlower hstep) (htook.sound lower hs)
          (hf.tail lower htook) hrun hrest
    | false =>
      rw [contentOf_skip line raw hcontent] at hrun
      have h₁ : Keeps sectionName ini r₁ := by
        cases htook with
        | comment => exact h
        | blank => exact h.append [] (.inl rfl)
        | more _ hcontent' => exact absurd hcontent' (by rw [hcontent]; exact Bool.false_ne_true)
        | header _ hcontent' => exact absurd hcontent' (by rw [hcontent]; exact Bool.false_ne_true)
        | option _ _ _ hcontent' => exact absurd hcontent' (by rw [hcontent]; exact Bool.false_ne_true)
      exact ih h₁ (htook.sound lower hs) (hf.tail lower htook) hrun hrest

end Step

/-! ## The whole file -/

/-- What is known of `str.lower`. -/
structure IsLower : Prop where
  ascii : ∀ s : Bytes, (∀ c ∈ s, c < 0x80) → lower s = s.map Server.toLower
  empty : ∀ s : Bytes, lower s = [] ↔ s = []

theorem IsLower.path (h : IsLower lower) : lower (Lib.ascii "jsonl_file") = Lib.ascii "jsonl_file" :=
  (h.ascii _ (by decide +kernel)).trans (by decide +kernel)

theorem trim_content (text : Bytes) : ∀ line ∈ content text, Server.trim line = line := by
  intro line hline
  obtain ⟨l, -, rfl⟩ := List.mem_map.mp (List.mem_filter.mp hline).1
  exact Server.trim_trim l

theorem Agrees.fits {text sectionName : Bytes} (h : Agrees lower text sectionName) :
    Fits lower sectionName {} (textLines text) := by
  have hsame : contentOf (textLines text) = content text := h.lines
  refine ⟨?_, ?_, ?_, h.more⟩
  · rw [hsame]
    exact trim_content text
  · rw [hsame]
    exact h.headers
  · rw [hsame]
    exact h.named

/-- The server reads the lines with content. -/
theorem exec_content (text : Bytes) : exec Server.Ini.line {} (content text) =
    exec Server.Ini.line {} (scanLines text) := by
  refine Server.exec_content isContent (fun line hline => ?_) (scanLines text) {}
  cases line with
  | nil => rfl
  | cons c t =>
    refine if_pos ?_
    by_contra hnot
    rw [not_or] at hnot
    rw [isContent, isComment, List.head?_cons, beq_false_of_ne fun heq => hnot.1 (Option.some.inj heq),
      beq_false_of_ne fun heq => hnot.2 (Option.some.inj heq)] at hline
    cases hline

/-- What an accepted output is in the tree. -/
theorem output_node (makeAddress : Bytes → Option Server.Address) (tree : Server.Tree) (cfg : Server.Config)
    (hcfg : Server.loadConfig makeAddress tree = .ok cfg) (out : Server.OutputConfig) (hout : out ∈ cfg.outputs)
    (hjsonl : out.jsonlFile ≠ []) :
    ∃ node, (ascii "output." ++ out.name, node) ∈ tree ∧ node.get (ascii "jsonl_file") = some out.jsonlFile ∧
      Server.isAbsolute out.jsonlFile = true := by
  have houtputs := Server.parseOutputs_ok tree [] cfg.outputs
    (Server.loadConfig_outputs makeAddress tree cfg hcfg)
  obtain ⟨⟨key, node⟩, hmem, hparse⟩ := Server.forall₂_left houtputs.flip out hout
  obtain ⟨hin, hprefix⟩ := List.mem_filter.mp hmem
  obtain ⟨hname, hpath, habs, -⟩ := Server.parseOutput_ok _ node out hparse
  have hkey : ascii "output." ++ out.name = key := by
    have hsplit := List.take_append_drop Server.outputPrefix.length key
    rw [(of_decide_eq_true hprefix).2, ← hname] at hsplit
    exact hsplit
  refine ⟨node, by rw [hkey]; exact hin, ?_, habs hjsonl⟩
  cases hget : node.get (ascii "jsonl_file") with
  | none =>
    rw [hget] at hpath
    exact absurd hpath hjsonl
  | some path =>
    rw [hget] at hpath
    rw [hpath, Option.getD_some]

theorem read_path (hlower : IsLower lower) (text : Bytes) (tree : Server.Tree)
    (htree : Server.iniTree text = some tree) (sectionName path : Bytes)
    (hdefault : sectionName ≠ defaultSection) (hagrees : Agrees lower text sectionName) (node : Server.Node)
    (hnode : (sectionName, node) ∈ tree) (hpath : node.get (ascii "jsonl_file") = some path)
    (habs : Server.isAbsolute path = true) (r : Reader) (hread : ConfigParser.read lower text = .ok r) :
    HasPath sectionName path r := by
  obtain ⟨fin, hrun, rfl⟩ := Option.map_eq_some_iff.mp htree
  obtain ⟨hlines, hclean⟩ := read_ok lower text r hread
  have hcontent : exec Server.Ini.line {} (contentOf (textLines text)) = some fin := by
    rw [show contentOf (textLines text) = content text from hagrees.lines, exec_content, hrun]
  have hstart : Keeps sectionName {} {} := ⟨fun p hp => (by cases hp), fun node hmem => (by cases hmem)⟩
  have hkeeps := hstart.run lower (textLines text) fin sound_start hagrees.fits hdefault hlower.path
    hcontent hlines hclean
  exact hkeeps.path node (Server.mem_of_mem_flush fin _ hnode) path hpath habs

/-! ## What the items say -/

theorem header_iff (text sectionName : Bytes) (hdefault : sectionName ≠ defaultSection) (r : Reader)
    (hread : ConfigParser.read lower text = .ok r) :
    sectionName ∈ r.sections ↔ .header sectionName ∈ fileItems lower text := by
  rw [read_sections lower text r hread, List.mem_filterMap]
  constructor
  · rintro ⟨item, hitem, hname⟩
    cases item with
    | header name =>
      rw [Item.headerName] at hname
      split at hname
      · cases hname
      · cases hname
        exact hitem
    | option => cases hname
    | more => cases hname
  · intro hitem
    exact ⟨_, hitem, by rw [Item.headerName, if_neg hdefault]⟩

/-- The value of an option is the path exactly if its first line is and no other has content. -/
theorem value_iff (text : Bytes) (hregular : Regular lower text) (key : Bytes × Bytes) (path value : Bytes)
    (rest : List Bytes) (hpath : lf ∉ path) (hstrip : ∀ l ∈ value :: rest, rstrip l = l)
    (hstands : Stands key (fileItems lower text) value (rest.filter (· ≠ []))) :
    joined (value :: rest) = path ↔ Stands key (fileItems lower text) path [] := by
  rw [joined_eq_iff value path rest (hstrip value List.mem_cons_self) hpath fun l hl =>
    hstrip l (List.mem_cons_of_mem value hl)]
  constructor
  · rintro ⟨rfl, hnone⟩
    rwa [hnone] at hstands
  · exact hstands.unique key _ hregular.options value path _ []

/-- `ConfigParser` has the section and, before any expansion, the path exactly if the file states it. -/
theorem stated_iff (text sectionName path : Bytes) (hdefault : sectionName ≠ defaultSection) (hpath : lf ∉ path)
    (hregular : Regular lower text) (r : Reader) (hread : ConfigParser.read lower text = .ok r) :
    sectionName ∈ r.sections ∧ r.raw sectionName pathKey = some path ↔ Stated lower text sectionName path := by
  have hsection := header_iff lower text sectionName hdefault r hread
  have hraw : r.raw sectionName pathKey = some path ↔
      Stands (sectionName, pathKey) (fileItems lower text) path [] ∨
        (sectionName, pathKey) ∉ (fileItems lower text).filterMap Item.optionName ∧
          Stands (defaultSection, pathKey) (fileItems lower text) path [] := by
    unfold Reader.raw
    rcases read_lookup lower text hregular r hread (sectionName, pathKey) with ⟨hown, habsent⟩ |
      ⟨value, rest, hown, hstrip, hstands⟩
    · rw [hown, Option.none_or]
      rcases read_lookup lower text hregular r hread (defaultSection, pathKey) with ⟨hdef, hnone⟩ |
        ⟨value, rest, hdef, hstrip, hstands⟩
      · rw [hdef]
        refine ⟨fun h => (by cases h), ?_⟩
        rintro (h | ⟨-, h⟩)
        · exact absurd h.mem habsent
        · exact absurd h.mem hnone
      · rw [hdef, Option.map_some, Option.some_inj,
          value_iff lower text hregular _ path value rest hpath hstrip hstands]
        exact ⟨fun h => .inr ⟨habsent, h⟩, fun h => h.elim (fun h => absurd h.mem habsent) And.right⟩
    · rw [hown, Option.some_or, Option.map_some, Option.some_inj,
        value_iff lower text hregular _ path value rest hpath hstrip hstands]
      exact ⟨.inl, fun h => h.elim id fun h => absurd hstands.mem h.1⟩
  rw [hsection, hraw]
  exact ⟨fun h => ⟨h.1, h.2⟩, fun h => ⟨h.header, h.option⟩⟩

/-- Where the grammars agree, the file states the path. -/
theorem Agrees.stated (hlower : IsLower lower) (text : Bytes) (tree : Server.Tree)
    (htree : Server.iniTree text = some tree) (sectionName path : Bytes)
    (hdefault : sectionName ≠ defaultSection) (hagrees : Agrees lower text sectionName) (node : Server.Node)
    (hnode : (sectionName, node) ∈ tree) (hpath : node.get pathKey = some path)
    (habs : Server.isAbsolute path = true) (hregular : Regular lower text) :
    Stated lower text sectionName path := by
  obtain ⟨r, hread⟩ := (read_iff lower hlower.empty text).mpr hregular
  obtain ⟨hmem, hstrip, k, hk⟩ :=
    read_path lower hlower text tree htree sectionName path hdefault hagrees node hnode hpath habs r hread
  refine ⟨(header_iff lower text sectionName hdefault r hread).mp hmem, .inl ?_⟩
  have hblank : (List.replicate k ([] : Bytes)).filter (· ≠ []) = [] :=
    List.filter_eq_nil_iff.mpr fun l hl => by simp [List.eq_of_mem_replicate hl]
  rcases read_lookup lower text hregular r hread (sectionName, pathKey) with ⟨hnone, -⟩ |
    ⟨value, rest, hsome, -, hstands⟩
  · exact absurd (hk.symm.trans hnone) (Option.some_ne_none _)
  · obtain ⟨rfl, rfl⟩ := List.cons.inj (Option.some.inj (hk.symm.trans hsome))
    rwa [hblank] at hstands

/-! ## Percent signs -/

/-- What a variable of the section is, by the items. -/
theorem raw_stands (text sectionName : Bytes) (hregular : Regular lower text) (r : Reader)
    (hread : ConfigParser.read lower text = .ok r) (name v : Bytes) (hraw : r.raw sectionName name = some v) :
    ∃ sec value rest, (sec = sectionName ∨ sec = defaultSection ∧
        (sectionName, name) ∉ (fileItems lower text).filterMap Item.optionName) ∧
      v = joined (value :: rest) ∧ Stands (sec, name) (fileItems lower text) value (rest.filter (· ≠ [])) := by
  obtain ⟨lines, hlines, rfl⟩ := Option.map_eq_some_iff.mp hraw
  have hentry : ∀ sec, r.options.lookup (sec, name) = some lines → ∃ value rest,
      joined lines = joined (value :: rest) ∧
      Stands (sec, name) (fileItems lower text) value (rest.filter (· ≠ [])) := by
    intro sec hlookup
    rcases read_lookup lower text hregular r hread (sec, name) with ⟨hnone, -⟩ |
      ⟨value, rest, hsome, -, hstands⟩
    · exact absurd (hlookup.symm.trans hnone) (Option.some_ne_none _)
    · exact ⟨value, rest, by rw [Option.some.inj (hlookup.symm.trans hsome)], hstands⟩
  rcases Option.or_eq_some_iff.mp hlines with hl | ⟨hown, hl⟩
  · obtain ⟨value, rest, hv, hstands⟩ := hentry sectionName hl
    exact ⟨sectionName, value, rest, .inl rfl, hv, hstands⟩
  · obtain ⟨value, rest, hv, hstands⟩ := hentry defaultSection hl
    rcases read_lookup lower text hregular r hread (sectionName, name) with ⟨-, habsent⟩ | ⟨_, _, hsome, -⟩
    · exact ⟨defaultSection, value, rest, .inr ⟨rfl, habsent⟩, hv, hstands⟩
    · exact absurd (hown.symm.trans hsome) (Option.some_ne_none _).symm

/-- A variable with a percent sign is the path, with its further lines plain. -/
theorem OthersPlain.raw {text sectionName path : Bytes} (h : OthersPlain lower text sectionName path)
    (hregular : Regular lower text) (r : Reader) (hread : ConfigParser.read lower text = .ok r)
    (name v : Bytes) (hraw : r.raw sectionName name = some v) (hpercent : percent ∈ v) :
    name = pathKey ∧ v.count percent ≤ path.count percent := by
  obtain ⟨sec, value, rest, hsec, rfl, hstands⟩ :=
    raw_stands lower text sectionName hregular r hread name v hraw
  obtain ⟨hvalue, hmore⟩ := h sec (hsec.imp_right And.left) name value _ hstands
  have hrest : ∀ l ∈ rest, percent ∉ l := by
    intro l hl hmem
    exact hmore l (List.mem_filter.mpr ⟨hl, decide_eq_true (List.ne_nil_of_mem hmem)⟩) hmem
  have hfirst : percent ∈ value := by
    by_contra hno
    refine joined_plain (value :: rest) (fun l hl => ?_) hpercent
    rcases List.mem_cons.mp hl with rfl | hl
    · exact hno
    · exact hrest l hl
  obtain ⟨hname, rfl⟩ := hvalue hfirst
  exact ⟨hname, joined_count value rest hrest⟩

/-- Where only the path has percent signs, an option that expands to the path is the path, and has none. -/
theorem OthersPlain.expanded {text sectionName path : Bytes} (h : OthersPlain lower text sectionName path)
    (hregular : Regular lower text) (r : Reader) (hread : ConfigParser.read lower text = .ok r) (v : Bytes)
    (hraw : r.raw sectionName pathKey = some v) (levels : ℕ)
    (hget : interpolateSome lower (r.raw sectionName) (levels + 1) v = .ok path) :
    v = path ∧ percent ∉ path := by
  have hcount := interpolateSome_count lower (r.raw sectionName) v path (fun name v' hv' hmem => by
    rw [(h.raw lower hregular r hread name v' hv' hmem).1, hraw] at hv'
    exact (Option.some.inj hv').symm) (levels + 1) hget
  have hplain : percent ∉ v := by
    intro hmem
    have hle := (h.raw lower hregular r hread pathKey v hraw hmem).2
    have hpos := List.count_pos_iff.mpr hmem
    omega
  rw [interpolateSome_plain lower _ levels v hplain] at hget
  cases hget
  exact ⟨rfl, hplain⟩

/-- An option without a percent sign is what it expands to. -/
theorem OwnPlain.expanded {text sectionName path : Bytes} (h : OwnPlain lower text sectionName)
    (hregular : Regular lower text) (r : Reader) (hread : ConfigParser.read lower text = .ok r) (v : Bytes)
    (hraw : r.raw sectionName pathKey = some v) (levels : ℕ)
    (hget : interpolateSome lower (r.raw sectionName) (levels + 1) v = .ok path) :
    v = path ∧ percent ∉ path := by
  obtain ⟨sec, value, rest, hsec, rfl, hstands⟩ :=
    raw_stands lower text sectionName hregular r hread pathKey v hraw
  obtain ⟨hvalue, hmore⟩ := h sec hsec value _ hstands
  have hplain : percent ∉ joined (value :: rest) := by
    refine joined_plain (value :: rest) fun l hl hmem => ?_
    rcases List.mem_cons.mp hl with rfl | hl
    · exact hvalue hmem
    · exact hmore l (List.mem_filter.mpr ⟨hl, decide_eq_true (List.ne_nil_of_mem hmem)⟩) hmem
  rw [interpolateSome_plain lower _ levels _ hplain] at hget
  cases hget
  exact ⟨rfl, hplain⟩

/-- When the viewer gets a path: `ConfigParser` reads the file, the section is there, and so is the option. -/
theorem parseServerConfig_iff (configPath outputSection text path : Bytes) :
    parseServerConfig lower str configPath outputSection text = .ok path ↔
      ∃ r, ConfigParser.read lower text = .ok r ∧ ascii "output." ++ outputSection ∈ r.sections ∧
        r.get lower (ascii "output." ++ outputSection) (ascii "jsonl_file") = .ok path := by
  unfold parseServerConfig
  constructor
  · intro hparse
    split at hparse
    · cases hparse
    next r hr =>
    refine ⟨r, hr, ?_⟩
    dsimp only at hparse
    split at hparse
    · cases hparse
    next hsec =>
    split at hparse
    · cases hparse
    split at hparse
    · next path' hget =>
      cases hparse
      exact ⟨not_not.mp hsec, hget⟩
    · cases hparse
  · rintro ⟨r, hr, hsec, hget⟩
    have hraw : r.raw (ascii "output." ++ outputSection) (lower (ascii "jsonl_file")) ≠ none := by
      intro hnone
      rw [Reader.get, hnone] at hget
      cases hget
    rw [hr]
    dsimp only
    rw [if_neg (not_not.mpr hsec), if_neg hraw, hget]

/-- The viewer follows the file the server writes if `ConfigParser` reads the configuration file at all, the file
states the path to it, and the path has no percent sign. The first is needed in any case, and all three where
the option has no percent sign, or where nothing else has one. Where the grammars agree, the file states the
path. -/
theorem parseServerConfig_agrees (hlower : IsLower lower) (readIni : Bytes → Option Server.Tree)
    (hini : Server.ReadsIni readIni) (makeAddress : Bytes → Option Server.Address) (configPath text : Bytes)
    (tree : Server.Tree) (htree : readIni text = some tree) (cfg : Server.Config)
    (hcfg : Server.loadConfig makeAddress tree = .ok cfg) (out : Server.OutputConfig)
    (hout : out ∈ cfg.outputs) (hjsonl : out.jsonlFile ≠ []) :
    let sectionName := ascii "output." ++ out.name
    let reads := parseServerConfig lower str configPath out.name text = .ok out.jsonlFile
    (Regular lower text → Stated lower text sectionName out.jsonlFile → percent ∉ out.jsonlFile → reads) ∧
      (reads → Regular lower text) ∧
      (OwnPlain lower text sectionName ∨ OthersPlain lower text sectionName out.jsonlFile → reads →
        Stated lower text sectionName out.jsonlFile ∧ percent ∉ out.jsonlFile) ∧
      (Agrees lower text sectionName → Regular lower text → Stated lower text sectionName out.jsonlFile) := by
  intro sectionName reads
  obtain ⟨node, hnode, hpath, habs⟩ := output_node makeAddress tree cfg hcfg out hout hjsonl
  have hini' := hini text tree htree
  have hline := Server.iniTree_oneLine text tree hini' _ _ _ node hnode hpath
  have hdefault : ascii "output." ++ out.name ≠ defaultSection := by
    intro heq
    cases heq
  have hread := parseServerConfig_iff lower str configPath out.name text out.jsonlFile
  have hregular : reads → Regular lower text := by
    intro hparse
    obtain ⟨r, hr, -⟩ := hread.mp hparse
    exact (read_iff lower hlower.empty text).mp ⟨r, hr⟩
  refine ⟨fun hreg hstated hpercent => ?_, hregular, fun hplain hparse => ?_, fun hagrees hreg => ?_⟩
  · obtain ⟨r, hr⟩ := (read_iff lower hlower.empty text).mpr hreg
    obtain ⟨hsec, hraw⟩ := (stated_iff lower text sectionName _ hdefault hline hreg r hr).mpr hstated
    refine hread.mpr ⟨r, hr, hsec, ?_⟩
    rw [Reader.get, hlower.path, show r.raw sectionName (ascii "jsonl_file") = some out.jsonlFile from hraw]
    exact interpolateSome_plain lower _ 9 _ hpercent
  · obtain ⟨r, hr, hsec, hget⟩ := hread.mp hparse
    have hreg := hregular hparse
    unfold Reader.get at hget
    rw [hlower.path] at hget
    cases hraw : r.raw sectionName pathKey with
    | none =>
      rw [show r.raw sectionName (ascii "jsonl_file") = none from hraw] at hget
      cases hget
    | some v =>
      rw [show r.raw sectionName (ascii "jsonl_file") = some v from hraw] at hget
      obtain ⟨rfl, hpercent⟩ := hplain.elim (fun h => h.expanded lower hreg r hr v hraw 9 hget)
        fun h => h.expanded lower hreg r hr v hraw 9 hget
      exact ⟨(stated_iff lower text sectionName _ hdefault hline hreg r hr).mp ⟨hsec, hraw⟩, hpercent⟩
  · exact hagrees.stated lower hlower text tree hini' sectionName _ hdefault node hnode hpath habs hreg

def lowerAscii (s : Bytes) : Bytes := s.map Server.toLower

theorem lowerAscii_isLower : IsLower lowerAscii := ⟨fun _ _ => rfl, fun _ => List.map_eq_nil_iff⟩

def oneSink (path : Bytes) : Bytes := ascii "[output.a]\njsonl_file = " ++ path

def oneSinkTree (path : Bytes) : Server.Tree := [(ascii "output.a", { keys := [(ascii "jsonl_file", path)] })]

def oneSinkConfig (path : Bytes) : Server.Config where
  outputs := [{ name := ascii "a", jsonlFile := path }]

theorem parseServerConfig_agrees_one :
    parseServerConfig lowerAscii (fun _ => []) (ascii "minilog.conf") (ascii "a") (oneSink (ascii "/a#1 ; a")) =
      .ok (ascii "/a#1 ; a") := by
  have hitems : fileItems lowerAscii (oneSink (ascii "/a#1 ; a")) =
      [.header (ascii "output.a"), .option (ascii "output.a") (ascii "jsonl_file") (ascii "/a#1 ; a")] := by
      decide +kernel
  obtain ⟨hreads, -, -, hstated⟩ :=
    parseServerConfig_agrees lowerAscii (fun _ => []) lowerAscii_isLower Server.iniTree
    (fun _ _ h => h) Server.plainAddress (ascii "minilog.conf") (oneSink (ascii "/a#1 ; a"))
    (oneSinkTree (ascii "/a#1 ; a")) (by decide +kernel) (oneSinkConfig (ascii "/a#1 ; a"))
    (by decide +kernel) { name := ascii "a", jsonlFile := ascii "/a#1 ; a" } (by decide +kernel) (by decide)
  have hregular : Regular lowerAscii (oneSink (ascii "/a#1 ; a")) := by
    refine ⟨by decide +kernel, ?_, ?_, ?_, ?_⟩
    · rw [hitems]
      decide
    · rw [hitems]
      decide
    · rw [hitems]
      decide
    · rw [hitems]
      decide
  refine hreads hregular (hstated ⟨by decide +kernel,
    by decide +kernel, by decide +kernel, fun sec name line h => ?_⟩ hregular) (by decide)
  rw [hitems] at h
  simp at h

/-- A percent sign in the path, which the server takes as it is. -/
theorem percent_refused :
    ¬ ∀ (text : Bytes) (tree : Server.Tree) (cfg : Server.Config), Server.iniTree text = some tree →
      Server.loadConfig Server.plainAddress tree = .ok cfg → ∀ out ∈ cfg.outputs, out.jsonlFile ≠ [] →
        parseServerConfig lowerAscii (fun _ => []) (ascii "minilog.conf") out.name text =
          .ok out.jsonlFile := by
  intro hall
  have hread := hall (oneSink (ascii "/a%1")) (oneSinkTree (ascii "/a%1")) (oneSinkConfig (ascii "/a%1"))
    (by decide +kernel) (by decide +kernel) { name := ascii "a", jsonlFile := ascii "/a%1" }
    (by decide +kernel) (by decide)
  have hrefused : parseServerConfig lowerAscii (fun _ => []) (ascii "minilog.conf") (ascii "a")
      (oneSink (ascii "/a%1")) = .error [ascii "Error parsing server config: "] := by decide +kernel
  rw [hrefused] at hread
  cases hread

end Minilog.Cli
