import Minilog.Viewer.Config

/-! The web viewer reads a configuration file that the server accepts as the server does.

The two are taken through the lines of the file side by side (`Follows`): after each line the sections of the
viewer are the nodes of the tree, but for those without a `jsonl_file`. An empty section, which the tree
drops, is one of these. That the viewer does not stop at a `max_files` follows from the server's check of the
finished tree, where the key still is. -/
namespace Minilog.Viewer
open Lib
set_option autoImplicit false

variable (quote : Bytes → Bytes)

/-! ## Line by line -/

/-- One line, by what it says to the server. -/
theorem Reading.line_of (r : Reading) (line : Bytes) (hascii : ∀ c ∈ line, c < 0x80) :
    r.line quote (trimSpace (dropCR line)) =
      match Server.iniLine line with
      | .blank => .ok r
      | .header name => .ok (r.header name)
      | .pair key value => r.pair quote key value
      | .malformed => .ok r := by
  have hcr : ∀ c ∈ dropCR line, c < 0x80 := by
    intro c hc
    unfold dropCR at hc
    split at hc
    · exact hascii c (List.dropLast_subset _ hc)
    · exact hascii c hc
  rw [trimSpace_ascii _ hcr, trim_dropCR]
  unfold Server.iniLine
  have htrim : ∀ c ∈ Server.trim line, c < 0x80 := fun c hc => hascii c (Server.trim_subset line hc)
  generalize Server.trim line = t at htrim
  cases t with
  | nil => rfl
  | cons c rest =>
    have hrest : ∀ d ∈ rest, d < 0x80 := fun d hd => htrim d (List.mem_cons_of_mem c hd)
    rw [Reading.line, Server.iniTrimmed, trimSpace_ascii _ fun d hd => hrest d (List.takeWhile_subset _ hd),
      trimSpace_ascii _ fun d hd => htrim d (List.takeWhile_subset _ hd),
      trimSpace_ascii _ fun d hd => htrim d (List.dropWhile_subset _ (List.drop_subset 1 _ hd))]
    split
    · rfl
    · split
      · split
        · rfl
        · rfl
      · split
        · rfl
        · rfl

/-- What the viewer keeps of a node. -/
def sectionOf (p : Bytes × Server.Node) : Section :=
  ⟨p.1.drop Server.outputPrefix.length, (p.2.get (ascii "jsonl_file")).getD [],
    ((p.2.get (ascii "max_files")).bind Server.stoi).getD 0, (p.2.get (ascii "max_files")).isSome⟩

def placeOf (p : Bytes × Server.Node) : Place :=
  if Server.outputPrefix.isPrefixOf p.1 then .output (sectionOf p) else if p.1 = viewerSection then .viewer
    else .outside

def nodes (ini : Server.Ini) : Server.Tree := ini.closed ++ ini.opened.toList

/-- The viewer and the server behind the same lines. -/
structure Follows (ini : Server.Ini) (r : Reading) : Prop where
  past : withJsonl r.past = withJsonl ((ini.closed.filter Server.isOutput).map sectionOf)
  place : r.place = (ini.opened.map placeOf).getD .outside
  host : r.viewerHost = ((nodes ini).get viewerSection (ascii "host")).getD []
  port : r.viewerPort = ((nodes ini).get viewerSection (ascii "port")).getD []
  fresh : ∀ p ∈ ini.opened, p.1 ∉ ini.closed.map Prod.fst
  named : ∀ p ∈ ini.opened, p.1 ≠ Server.outputPrefix

theorem withJsonl_append (a b : List Section) : withJsonl (a ++ b) = withJsonl a ++ withJsonl b :=
  List.filter_append a b

/-- A section without keys has no `jsonl_file`. -/
theorem withJsonl_empty (p : Bytes × Server.Node) (h : p.2.keys = []) : withJsonl [sectionOf p] = [] := by
  unfold withJsonl sectionOf Server.Node.get
  rw [h]
  rfl

theorem isOutput_iff (p : Bytes × Server.Node) (h : p.1 ≠ Server.outputPrefix) :
    Server.isOutput p = Server.outputPrefix.isPrefixOf p.1 := by
  unfold Server.isOutput
  rw [Bool.eq_iff_iff, decide_eq_true_eq, List.isPrefixOf_iff_prefix, List.prefix_iff_eq_take]
  constructor
  · rintro ⟨-, heq⟩
    exact heq.symm
  · intro heq
    refine ⟨?_, heq.symm⟩
    have hle : Server.outputPrefix.length ≤ p.1.length := by
      rw [heq, List.length_take]
      exact Nat.min_le_right _ _
    refine Nat.lt_of_le_of_ne hle fun hlen => h ?_
    rw [heq, hlen, List.take_length]

/-- Up to those without a `jsonl_file`, the sections so far are the nodes of the tree so far. -/
theorem Follows.sections {ini : Server.Ini} {r : Reading} (h : Follows ini r) :
    withJsonl r.sections = withJsonl ((ini.flush.filter Server.isOutput).map sectionOf) := by
  unfold Reading.sections Server.Ini.flush
  rw [h.place]
  cases ho : ini.opened with
  | none => exact h.past
  | some p =>
    have hout := isOutput_iff p (h.named p ho)
    dsimp only [Option.map_some, Option.getD_some]
    unfold placeOf
    cases hpre : Server.outputPrefix.isPrefixOf p.1 with
    | true =>
      rw [if_pos rfl]
      dsimp only
      rw [withJsonl_append, h.past]
      split
      · next hempty => rw [withJsonl_empty p hempty, List.append_nil]
      · rw [List.filter_append, List.filter_cons_of_pos (by rw [hout, hpre]), List.filter_nil,
          List.map_append, withJsonl_append]
        rfl
    | false =>
      have hsame : (ini.closed ++ [p]).filter Server.isOutput = ini.closed.filter Server.isOutput := by
        rw [List.filter_append, List.filter_cons_of_neg (by rw [hout, hpre]; exact Bool.false_ne_true),
          List.filter_nil, List.append_nil]
      rw [if_neg Bool.false_ne_true]
      split
      · next heq =>
        split at heq
        · cases heq
        · cases heq
      · split
        · exact h.past
        · rw [hsame]
          exact h.past

theorem get_flush (ini : Server.Ini) (sec key : Bytes) : ini.flush.get sec key = (nodes ini).get sec key := by
  unfold Server.Ini.flush nodes
  cases ini.opened with
  | none => rw [Option.toList_none, List.append_nil]
  | some p =>
    dsimp only
    rw [Option.toList_some]
    split
    · next hempty =>
      rw [Server.Tree.get_snoc_nothing _ p.1 sec key p.2]
      unfold Server.Node.get
      rw [hempty]
      rfl
    · rfl

theorem Follows.header {ini : Server.Ini} {r : Reading} (h : Follows ini r) (name : Bytes)
    (hnew : name ∉ ini.flush.map Prod.fst) (hnamed : name ≠ Server.outputPrefix) :
    Follows ⟨ini.flush, some (name, {})⟩ (r.header name) where
  past := h.sections
  place := rfl
  host := by
    rw [nodes, Option.toList_some, Server.Tree.get_snoc_nothing _ _ _ _ _ rfl, get_flush]
    exact h.host
  port := by
    rw [nodes, Option.toList_some, Server.Tree.get_snoc_nothing _ _ _ _ _ rfl, get_flush]
    exact h.port
  fresh := by
    intro p hp
    cases hp
    exact hnew
  named := by
    intro p hp
    cases hp
    exact hnamed

/-- A key before the first section is nothing to the viewer, and a node without keys to the server. -/
theorem Follows.alone {ini : Server.Ini} {r : Reading} (h : Follows ini r) (hnone : ini.opened = none)
    (key value : Bytes) :
    Follows { ini with closed := ini.closed ++ [(key, { data := value })] } r where
  past := by
    dsimp only
    rw [h.past, List.filter_append, List.map_append, withJsonl_append]
    have hnothing : withJsonl (([(key, ({ data := value } : Server.Node))].filter Server.isOutput).map
        sectionOf) = [] := by
      rw [List.filter_singleton]
      cases Server.isOutput (key, { data := value }) with
      | true => exact withJsonl_empty _ rfl
      | false => rfl
    rw [hnothing, List.append_nil]
  place := h.place
  host := by
    rw [h.host, nodes, nodes]
    dsimp only
    rw [hnone, Option.toList_none, List.append_nil, List.append_nil, Server.Tree.get_snoc_nothing _ _ _ _ _ rfl]
  port := by
    rw [h.port, nodes, nodes]
    dsimp only
    rw [hnone, Option.toList_none, List.append_nil, List.append_nil, Server.Tree.get_snoc_nothing _ _ _ _ _ rfl]
  fresh := by
    intro p hp
    rw [hnone] at hp
    cases hp
  named := h.named

/-- What the server checks about `max_files`, which the viewer checks as well. -/
def Checked (p : Bytes × Server.Node) : Prop :=
  ∀ value, p.2.get (ascii "max_files") = some value → ∃ n : ℤ, Server.stoi value = some n ∧ 0 ≤ n ∧
    n ≤ maxFilesLimit

theorem get_opened (ini : Server.Ini) (p : Bytes × Server.Node) (sec key : Bytes) (h : ini.opened = some p)
    (hfresh : p.1 ∉ ini.closed.map Prod.fst) :
    (nodes ini).get sec key = if sec = p.1 then p.2.get key else ini.closed.get sec key := by
  rw [nodes, h, Option.toList_some]
  split
  · next heq => rw [heq, Server.Tree.get_snoc _ _ _ _ hfresh]
  · next hne => rw [Server.Tree.get_snoc_other _ _ _ _ _ hne]

/-- The open section gets one more key. -/
theorem Follows.push {ini : Server.Ini} {r r' : Reading} (h : Follows ini r) (name : Bytes)
    (node node' : Server.Node) (hsome : ini.opened = some (name, node)) (hpast : r'.past = r.past)
    (hplace : r'.place = placeOf (name, node')) (hviewer : viewerSection = name →
      r'.viewerHost = (node'.get (ascii "host")).getD [] ∧ r'.viewerPort = (node'.get (ascii "port")).getD [])
    (hother : viewerSection ≠ name → r'.viewerHost = r.viewerHost ∧ r'.viewerPort = r.viewerPort) :
    Follows { ini with opened := some (name, node') } r' := by
  have hfresh := h.fresh (name, node) hsome
  have hget : ∀ sec key, (nodes { ini with opened := some (name, node') }).get sec key =
      if sec = name then node'.get key else ini.closed.get sec key :=
      fun sec key => get_opened _ (name, node') sec key rfl hfresh
  have hhost := h.host
  have hport := h.port
  rw [get_opened ini (name, node) _ _ hsome hfresh] at hhost hport
  refine ⟨?_, hplace, ?_, ?_, ?_, ?_⟩
  · rw [hpast]
    exact h.past
  · rw [hget]
    split
    · next heq => exact (hviewer heq).1
    · next hne => rw [(hother hne).1, hhost, if_neg hne]
  · rw [hget]
    split
    · next heq => exact (hviewer heq).2
    · next hne => rw [(hother hne).2, hport, if_neg hne]
  · intro p hp
    cases hp
    exact hfresh
  · intro p hp
    cases hp
    exact h.named (name, node) hsome

theorem sectionOf_push (name : Bytes) (node : Server.Node) (key value : Bytes)
    (hnew : key ∉ node.keys.map Prod.fst) :
    sectionOf (name, node.push key value) =
      if key = ascii "jsonl_file" then { sectionOf (name, node) with jsonlFile := value }
      else if key = ascii "max_files" then
        { sectionOf (name, node) with maxFiles := (Server.stoi value).getD 0, maxFilesSet := true }
      else sectionOf (name, node) := by
  have hself := Server.Node.get_push node key value hnew
  have hother := Server.Node.get_push_other node key value
  unfold sectionOf
  dsimp only
  split
  · next hkey =>
    rw [hkey] at hself hother
    rw [hkey, hself, hother _ (by decide)]
    rfl
  · next hjsonl =>
    split
    · next hkey =>
      rw [hkey] at hself hother
      rw [hkey, hself, hother _ (by decide)]
      rfl
    · next hmax => rw [hother _ (Ne.symm hjsonl), hother _ (Ne.symm hmax)]

theorem placeOf_output (name : Bytes) (node : Server.Node) (h : Server.outputPrefix.isPrefixOf name = true) :
    placeOf (name, node) = .output (sectionOf (name, node)) := if_pos h

theorem placeOf_viewer (node : Server.Node) : placeOf (viewerSection, node) = .viewer := by
  unfold placeOf
  rw [if_neg (show ¬Server.outputPrefix.isPrefixOf viewerSection = true from by decide), if_pos rfl]

theorem placeOf_outside (name : Bytes) (node : Server.Node) (h : Server.outputPrefix.isPrefixOf name = false)
    (hne : viewerSection ≠ name) : placeOf (name, node) = .outside := by
  unfold placeOf
  rw [if_neg (by rw [h]; exact Bool.false_ne_true), if_neg (Ne.symm hne)]

section Pair

variable {ini : Server.Ini} {r : Reading} (h : Follows ini r) (name : Bytes) (node : Server.Node)
  (hsome : ini.opened = some (name, node)) (key x : Bytes) (hnew : key ∉ node.keys.map Prod.fst)

include h hsome hnew

theorem Follows.output (hpre : Server.outputPrefix.isPrefixOf name = true)
    (hchecked : Checked (name, node.push key (Server.trim x))) :
    ∃ r', r.pair quote key (Server.trim x) = .ok r' ∧
      Follows { ini with opened := some (name, node.push key (Server.trim x)) } r' := by
  have hne : viewerSection ≠ name := by
    rintro rfl
    exact absurd hpre (by decide)
  have hplace : r.place = placeOf (name, node) := by
    rw [h.place, hsome]
    rfl
  have hsection := sectionOf_push name node key (Server.trim x) hnew
  have hpush : ∀ r' : Reading, r'.past = r.past →
      r'.place = .output (sectionOf (name, node.push key (Server.trim x))) →
      r'.viewerHost = r.viewerHost ∧ r'.viewerPort = r.viewerPort →
      Follows { ini with opened := some (name, node.push key (Server.trim x)) } r' := fun r' hpast hput hsame =>
    h.push name node _ hsome hpast (by rw [hput, placeOf_output name _ hpre])
      (fun heq => absurd heq hne) fun _ => hsame
  rw [placeOf_output name node hpre] at hplace
  unfold Reading.pair
  rw [hplace]
  dsimp only
  by_cases hjsonl : key = ascii "jsonl_file"
  · rw [if_pos hjsonl] at hsection ⊢
    exact ⟨_, rfl, hpush _ rfl (by rw [hsection]) ⟨rfl, rfl⟩⟩
  · rw [if_neg hjsonl] at hsection ⊢
    by_cases hmax : key = ascii "max_files"
    · rw [if_pos hmax] at hsection ⊢
      have hself := Server.Node.get_push node key (Server.trim x) hnew
      rw [hmax] at hself hchecked
      obtain ⟨n, hn, hlow, hhigh⟩ := hchecked (Server.trim x) hself
      rw [atoi_stoi x n hn]
      dsimp only
      rw [if_neg (by omega)]
      exact ⟨_, rfl, hpush _ rfl (by rw [hsection, hn]; rfl) ⟨rfl, rfl⟩⟩
    · rw [if_neg hmax] at hsection ⊢
      exact ⟨_, rfl, hpush _ rfl (by rw [hsection, hplace]) ⟨rfl, rfl⟩⟩

theorem Follows.viewer (hname : viewerSection = name) :
    ∃ r', r.pair quote key (Server.trim x) = .ok r' ∧
      Follows { ini with opened := some (name, node.push key (Server.trim x)) } r' := by
  have hself := Server.Node.get_push node key (Server.trim x) hnew
  have hother := Server.Node.get_push_other node key (Server.trim x)
  have hhost := h.host
  have hport := h.port
  rw [get_opened ini (name, node) _ _ hsome (h.fresh _ hsome), if_pos hname] at hhost hport
  have hplace : r.place = .viewer := by
    rw [h.place, hsome, ← hname]
    exact placeOf_viewer node
  have hpush : ∀ r' : Reading, r'.past = r.past → r'.place = .viewer →
      r'.viewerHost = ((node.push key (Server.trim x)).get (ascii "host")).getD [] →
      r'.viewerPort = ((node.push key (Server.trim x)).get (ascii "port")).getD [] →
      Follows { ini with opened := some (name, node.push key (Server.trim x)) } r' := fun r' hpast hput hh hp =>
    h.push name node _ hsome hpast (by rw [hput, ← hname, placeOf_viewer]) (fun _ => ⟨hh, hp⟩) fun hne =>
      absurd hname hne
  unfold Reading.pair
  rw [hplace]
  dsimp only
  by_cases hh : key = ascii "host"
  · rw [if_pos hh]
    refine ⟨_, rfl, hpush _ rfl rfl ?_ ?_⟩
    · rw [← hh, hself]
      rfl
    · rw [hother _ (by rw [hh]; decide)]
      exact hport
  · rw [if_neg hh]
    by_cases hp : key = ascii "port"
    · rw [if_pos hp]
      refine ⟨_, rfl, hpush _ rfl rfl ?_ ?_⟩
      · rw [hother _ (Ne.symm hh)]
        exact hhost
      · rw [← hp, hself]
        rfl
    · rw [if_neg hp]
      refine ⟨_, rfl, hpush _ rfl hplace ?_ ?_⟩
      · rw [hother _ (Ne.symm hh)]
        exact hhost
      · rw [hother _ (Ne.symm hp)]
        exact hport

theorem Follows.pair (hchecked : Server.isOutput (name, node.push key (Server.trim x)) = true →
      Checked (name, node.push key (Server.trim x))) :
    ∃ r', r.pair quote key (Server.trim x) = .ok r' ∧
      Follows { ini with opened := some (name, node.push key (Server.trim x)) } r' := by
  cases hpre : Server.outputPrefix.isPrefixOf name with
  | true =>
    have hout := isOutput_iff (name, node.push key (Server.trim x)) (h.named (name, node) hsome)
    exact h.output quote name node hsome key x hnew hpre (hchecked (by rw [hout, hpre]))
  | false =>
    by_cases hname : viewerSection = name
    · exact h.viewer quote name node hsome key x hnew hname
    · have hplace : r.place = .outside := by
        rw [h.place, hsome]
        exact placeOf_outside name node hpre hname
      unfold Reading.pair
      rw [hplace]
      exact ⟨r, rfl, h.push name node _ hsome rfl (by rw [hplace, placeOf_outside name _ hpre hname])
        (fun heq => absurd heq hname) fun _ => ⟨rfl, rfl⟩⟩

end Pair

theorem Follows.line {ini ini' : Server.Ini} {r : Reading} (h : Follows ini r) (line : Bytes)
    (hascii : ∀ c ∈ line, c < 0x80) (hnamed : Server.iniLine line ≠ .header Server.outputPrefix)
    (hstep : ini.line line = some ini') (hchecked : ∀ p ∈ ini'.opened, Server.isOutput p = true → Checked p) :
    ∃ r', r.line quote (trimSpace (dropCR line)) = .ok r' ∧ Follows ini' r' := by
  rw [Reading.line_of quote r line hascii]
  rcases Server.line_cases ini ini' line hstep with ⟨hl, rfl⟩ | ⟨name, hl, hnew, rfl⟩ |
    ⟨key, value, hl, hnone, -, rfl⟩ | ⟨key, value, name, node, hl, hsome, hnew, rfl⟩
  · rw [hl]
    exact ⟨r, rfl, h⟩
  · rw [hl]
    exact ⟨_, rfl, h.header name hnew fun heq => hnamed (by rw [hl, heq])⟩
  · rw [hl]
    refine ⟨r, ?_, h.alone hnone key value⟩
    dsimp only
    unfold Reading.pair
    rw [h.place, hnone]
    rfl
  · obtain ⟨-, x, -, -, -, rfl, -⟩ := Server.iniLine_pair line key value hl
    rw [hl]
    exact h.pair quote name node hsome key x hnew (hchecked _ rfl)

theorem Follows.scan {ini fin : Server.Ini} {r : Reading} (h : Follows ini r) (lines : List Bytes)
    (hascii : ∀ line ∈ lines, ∀ c ∈ line, c < 0x80) (hshort : ∀ line ∈ lines, line.length < maxScanTokenSize)
    (hnamed : ∀ line ∈ lines, Server.iniLine line ≠ .header Server.outputPrefix)
    (hrun : exec Server.Ini.line ini lines = some fin)
    (hchecked : ∀ p ∈ fin.flush, Server.isOutput p = true → Checked p) :
    ∃ r', scan quote r lines = .ok r' ∧ Follows fin r' := by
  induction lines generalizing ini r with
  | nil =>
    cases hrun
    exact ⟨r, rfl, h⟩
  | cons line lines ih =>
    cases hstep : ini.line line with
    | none =>
      rw [exec, hstep] at hrun
      cases hrun
    | some ini' =>
      rw [exec_cons _ _ _ _ _ hstep] at hrun
      -- a key that is there now is there in the end
      have hnow : ∀ p ∈ ini'.opened, Server.isOutput p = true → Checked p := by
        rintro ⟨name, node⟩ hp hout value hvalue
        have hkeys : node.keys ≠ [] := by
          intro hnil
          rw [Server.Node.get, hnil] at hvalue
          cases hvalue
        obtain ⟨node', hmem, hpre⟩ := (Server.exec_grows lines ini' fin hrun).2 name node hp hkeys
        exact hchecked (name, node') hmem hout value (Server.Node.get_prefix node node' _ _ hpre hvalue)
      obtain ⟨r', hr', h'⟩ := h.line quote line (hascii line List.mem_cons_self)
        (hnamed line List.mem_cons_self) hstep hnow
      obtain ⟨r'', hr'', h''⟩ := ih h' (fun l hl => hascii l (List.mem_cons_of_mem _ hl))
        (fun l hl => hshort l (List.mem_cons_of_mem _ hl))
        (fun l hl => hnamed l (List.mem_cons_of_mem _ hl)) hrun
      refine ⟨r'', ?_, h''⟩
      rw [Viewer.scan, if_pos (hshort line List.mem_cons_self), hr']
      exact hr''

/-! ## The whole file -/

/-- The sinks the server writes a `jsonl_file` for. -/
def sinksOf (outputs : List Server.OutputConfig) : List Sink :=
  (outputs.filter fun out => decide (out.jsonlFile ≠ [])).map fun out =>
    ⟨out.name, out.jsonlFile, if out.maxFiles = 0 then maxFilesLimit else out.maxFiles⟩

/-- An absent or empty port is the default one. -/
def ValidPort (port : Bytes) : Prop := port = [] ∨ ∃ n : ℤ, atoi port = some n ∧ 0 ≤ n ∧ n ≤ 65535

theorem checked_of_parseOutput (p : Bytes × Server.Node) (name : Bytes) (out : Server.OutputConfig)
    (h : Server.parseOutput name p.2 = .ok out) : Checked p := by
  obtain ⟨-, -, -, n, hn, hlow, hhigh, -⟩ := Server.parseOutput_ok name p.2 out h
  intro value hvalue
  rw [hvalue, Server.requireInt] at hn
  cases hs : Server.stoi value with
  | none =>
    rw [hs] at hn
    cases hn
  | some m =>
    rw [hs] at hn
    cases hn
    exact ⟨n, rfl, hlow, hhigh⟩

theorem sink_of_parseOutput (p : Bytes × Server.Node) (out : Server.OutputConfig)
    (h : Server.parseOutput (p.1.drop Server.outputPrefix.length) p.2 = .ok out) :
    (sectionOf p).jsonlFile = out.jsonlFile ∧
      (sectionOf p).sink = ⟨out.name, out.jsonlFile, if out.maxFiles = 0 then maxFilesLimit
        else out.maxFiles⟩ := by
  obtain ⟨hname, hjsonl, -, n, hn, hlow, hhigh, hmax⟩ := Server.parseOutput_ok _ p.2 out h
  refine ⟨hjsonl.symm, ?_⟩
  unfold Section.sink sectionOf
  dsimp only
  rw [hname, hjsonl, hmax]
  congr 1
  cases hvalue : p.2.get (ascii "max_files") with
  | none =>
    rw [hvalue] at hn
    cases hn
    rfl
  | some value =>
    rw [hvalue, Server.requireInt] at hn
    cases hs : Server.stoi value with
    | none =>
      rw [hs] at hn
      cases hn
    | some m =>
      rw [hs] at hn
      cases hn
      rw [Option.isSome_some, if_pos rfl, Option.bind_some, hs, Option.getD_some]
      by_cases hzero : n = 0
      · rw [if_pos hzero, if_pos (by omega)]
      · rw [if_neg hzero, if_neg (by omega)]

theorem sinks_eq (nodes : List (Bytes × Server.Node)) (outputs : List Server.OutputConfig)
    (h : List.Forall₂ (fun p out => Server.parseOutput (p.1.drop Server.outputPrefix.length) p.2 = .ok out)
      nodes outputs) :
    (withJsonl (nodes.map sectionOf)).map Section.sink = sinksOf outputs := by
  induction h with
  | nil => rfl
  | @cons p out nodes outputs hp _ ih =>
    obtain ⟨hjsonl, hsink⟩ := sink_of_parseOutput p out hp
    unfold withJsonl sinksOf at ih ⊢
    rw [List.map_cons, List.filter_cons, List.filter_cons, hjsonl]
    split
    · rw [List.map_cons, List.map_cons, ih, hsink]
    · exact ih

theorem listenAddr_ok (host port : Bytes) (h : ValidPort port) :
    ∃ addr, listenAddr quote host port = .ok addr := by
  have hsome : ∃ n : ℤ, atoi (if port = [] then defaultPort else port) = some n ∧ 0 ≤ n ∧ n ≤ 65535 := by
    rcases h with rfl | ⟨n, hn, hlow, hhigh⟩
    · exact ⟨9514, by decide, by decide, by decide⟩
    · by_cases hnil : port = []
      · exact ⟨9514, by rw [if_pos hnil]; decide, by decide, by decide⟩
      · exact ⟨n, by rw [if_neg hnil, hn], hlow, hhigh⟩
  obtain ⟨n, hn, hlow, hhigh⟩ := hsome
  unfold listenAddr
  dsimp only
  rw [hn]
  dsimp only
  rw [if_neg (by omega)]
  exact ⟨_, rfl⟩

/-- The web viewer reads a file that the server accepts as the server does, or finds no sink where there is
none. -/
theorem loadConfig_agrees (readIni : Bytes → Option Server.Tree) (hread : Server.ReadsIni readIni)
    (makeAddress : Bytes → Option Server.Address) (configPath text : Bytes) (hascii : ∀ c ∈ text, c < 0x80)
    (hshort : ∀ line ∈ scanLines text, line.length < 64 * 1024)
    (hnamed : ∀ line ∈ scanLines text, Server.iniLine line ≠ .header Server.outputPrefix)
    (tree : Server.Tree) (htree : readIni text = some tree)
    (hport : ∀ port, tree.get viewerSection (ascii "port") = some port → ValidPort port)
    (cfg : Server.Config) (hcfg : Server.loadConfig makeAddress tree = .ok cfg) :
    (∃ config, loadConfig quote configPath text = .ok config ∧ config.sinks = sinksOf cfg.outputs) ∨
      (loadConfig quote configPath text =
          .error (ascii "no output sections with a jsonl_file found in " ++ quote configPath) ∧
        sinksOf cfg.outputs = []) := by
  have houtputs := Server.parseOutputs_ok tree [] cfg.outputs
    (Server.loadConfig_outputs makeAddress tree cfg hcfg)
  obtain ⟨fin, hrun, rfl⟩ := Option.map_eq_some_iff.mp (hread text tree htree)
  have hchecked : ∀ p ∈ fin.flush, Server.isOutput p = true → Checked p := by
    intro p hp hout
    obtain ⟨out, -, hparse⟩ := Server.forall₂_left houtputs p (List.mem_filter.mpr ⟨hp, hout⟩)
    exact checked_of_parseOutput p _ out hparse
  have hstart : Follows {} {} := ⟨rfl, rfl, rfl, rfl, fun p hp => (by cases hp), fun p hp => (by cases hp)⟩
  obtain ⟨r, hr, hend⟩ := hstart.scan quote (scanLines text)
    (fun line hline c hc => hascii c (mem_of_mem_scanLines text line hline c hc)) hshort hnamed hrun hchecked
  have hsinks : (withJsonl r.sections).map Section.sink = sinksOf cfg.outputs := by
    rw [hend.sections]
    exact sinks_eq _ _ houtputs
  unfold loadConfig
  rw [hr]
  by_cases hnil : sinksOf cfg.outputs = []
  · right
    refine ⟨?_, hnil⟩
    exact if_pos (hsinks.trans hnil)
  · left
    have hvalid : ValidPort r.viewerPort := by
      rw [hend.port, ← get_flush]
      cases hp : fin.flush.get viewerSection (ascii "port") with
      | none => exact .inl rfl
      | some port => exact hport port hp
    obtain ⟨addr, haddr⟩ := listenAddr_ok quote r.viewerHost r.viewerPort hvalid
    refine ⟨⟨sinksOf cfg.outputs, addr⟩, ?_, rfl⟩
    refine (if_neg (hsinks ▸ hnil)).trans ?_
    rw [haddr, hsinks]
    rfl

def quotedText (s : Bytes) : Bytes := [0x22] ++ s ++ [0x22]

def twoSinks : Bytes := ascii "[output.a]\nmax_files = 0\njsonl_file=/a#1 ; a\n[output.e]\n[output.b]\njsonl_file=/b"

def twoSinksTree : Server.Tree :=
  [(ascii "output.a", { keys := [(ascii "max_files", ascii "0"), (ascii "jsonl_file", ascii "/a#1 ; a")] }),
    (ascii "output.b", { keys := [(ascii "jsonl_file", ascii "/b")] })]

def twoSinksConfig : Server.Config where
  outputs :=
    [{ name := ascii "a", jsonlFile := ascii "/a#1 ; a", maxFiles := 0 },
      { name := ascii "b", jsonlFile := ascii "/b" }]

theorem loadConfig_agrees_two :
    (∃ config, loadConfig quotedText (ascii "minilog.conf") twoSinks = .ok config ∧
        config.sinks = sinksOf twoSinksConfig.outputs) ∨
      (loadConfig quotedText (ascii "minilog.conf") twoSinks =
          .error (ascii "no output sections with a jsonl_file found in " ++ quotedText (ascii "minilog.conf")) ∧
        sinksOf twoSinksConfig.outputs = []) := by
  refine loadConfig_agrees quotedText Server.iniTree (fun _ _ h => h) Server.plainAddress
    (ascii "minilog.conf") twoSinks (by decide +kernel) (by decide +kernel) (by decide +kernel) twoSinksTree
    (by decide +kernel) ?_ twoSinksConfig (by decide +kernel)
  intro port hport
  have hnone : twoSinksTree.get viewerSection (ascii "port") = none := by decide +kernel
  rw [hnone] at hport
  cases hport

end Minilog.Viewer
