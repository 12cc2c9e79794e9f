import Minilog.Lib.Form
import Minilog.Server.Ini
import Minilog.Viewer.Depth

/-! The web viewer's reading of the server's configuration file (`config.go`).

The viewer reads line by line and keeps only what it needs, whatever stands around it. `quote` is the verb
`%q`. On ASCII text its white space and its numbers are the server's. -/
namespace Minilog.Viewer
open Lib
open Minilog.Parser (isDigit decimal)
set_option autoImplicit false

/-- A local type of `loadConfig`. -/
structure Section where
  name : Bytes
  jsonlFile : Bytes := []
  maxFiles : ℤ := 0
  maxFilesSet : Bool := false
deriving DecidableEq

/-- Where a line stands: `current` with `inOutputSec`, `inViewerSec`, or neither. -/
inductive Place where
  | outside
  | output (current : Section)
  | viewer
deriving DecidableEq

/-- The variables of the loop; `past` are the sections before `current`. -/
structure Reading where
  past : List Section := []
  place : Place := .outside
  viewerHost : Bytes := []
  viewerPort : Bytes := []
deriving DecidableEq

structure Config where
  sinks : List Sink
  addr : Bytes
deriving DecidableEq

/-- `strconv.Atoi` where an int has 64 bits. -/
def atoi (s : Bytes) : Option ℤ :=
  let (sign, digits) :=
    match s with
    | 0x2D :: rest => ((-1 : ℤ), rest)
    | 0x2B :: rest => (1, rest)
    | rest => (1, rest)
  if digits = [] ∨ digits.all isDigit = false then none
  else
    let n := sign * (decimal digits : ℤ)
    if -2 ^ 63 ≤ n ∧ n < 2 ^ 63 then some n else none

def itoa (n : ℤ) : Bytes := ascii (toString n)

/-! ## The loop -/

variable (quote : Bytes → Bytes)

def Reading.sections (r : Reading) : List Section :=
  match r.place with
  | .output current => r.past ++ [current]
  | _ => r.past

def viewerSection : Bytes := ascii "web_viewer"

def Reading.header (r : Reading) (name : Bytes) : Reading :=
  { r with
    past := r.sections
    place :=
      if Server.outputPrefix.isPrefixOf name then .output { name := name.drop Server.outputPrefix.length }
      else if name = viewerSection then .viewer
      else .outside }

def Reading.pair (r : Reading) (key val : Bytes) : Except Bytes Reading :=
  match r.place with
  | .outside => .ok r
  | .viewer =>
    if key = ascii "host" then .ok { r with viewerHost := val }
    else if key = ascii "port" then .ok { r with viewerPort := val }
    else .ok r
  | .output current =>
    if key = ascii "jsonl_file" then .ok { r with place := .output { current with jsonlFile := val } }
    else if key = ascii "max_files" then
      match atoi val with
      | none =>
        .error (ascii "[output." ++ current.name ++ ascii "] max_files = " ++ quote val ++
          ascii " is not a whole number")
      | some n =>
        if n < 0 ∨ (maxFilesLimit : ℤ) < n then
          .error (ascii "[output." ++ current.name ++ ascii "] max_files = " ++ itoa n ++
            ascii " must be between 0 and " ++
              numeral maxFilesLimit)
        else .ok { r with place := .output { current with maxFiles := n, maxFilesSet := true } }
    else .ok r

/-- The body of the loop; `line` is trimmed. -/
def Reading.line (r : Reading) (line : Bytes) : Except Bytes Reading :=
  match line with
  | [] => .ok r
  | c :: rest =>
    if c = Server.semicolon ∨ c = Server.hash then .ok r
    else if c = Server.leftBracket then
      if Server.rightBracket ∈ rest then .ok
        (r.header (trimSpace (rest.takeWhile (· ≠ Server.rightBracket)))) else .ok r
    else if Server.equalsSign ∈ c :: rest then
      r.pair quote (trimSpace ((c :: rest).takeWhile (· ≠ Server.equalsSign)))
        (trimSpace (((c :: rest).dropWhile (· ≠ Server.equalsSign)).drop 1))
    else .ok r

/-- `bufio.MaxScanTokenSize`. -/
def maxScanTokenSize : ℕ := 64 * 1024

/-- The scanner stops at the first line that does not fit. -/
def scan (r : Reading) : List Bytes → Except Bytes Reading
  | [] => .ok r
  | line :: rest =>
    if line.length < maxScanTokenSize then do
      let r ← r.line quote (trimSpace (dropCR line))
      scan r rest
    else .error (ascii "error reading config: bufio.Scanner: token too long")

def defaultMaxFiles : ℕ := 10

def Section.sink (s : Section) : Sink :=
  ⟨s.name, s.jsonlFile, if s.maxFilesSet then (if s.maxFiles = 0 then maxFilesLimit else s.maxFiles.toNat)
    else defaultMaxFiles⟩

/-- The sections with a `jsonl_file`. -/
def withJsonl (sections : List Section) : List Section := sections.filter fun s => decide (s.jsonlFile ≠ [])

/-! ## The listen address -/

def defaultPort : Bytes := ascii "9514"

/-- `net.JoinHostPort`. -/
def joinHostPort (host port : Bytes) : Bytes :=
  if Server.colon ∈ host then [Server.leftBracket] ++ host ++ [Server.rightBracket, Server.colon] ++ port
  else host ++ [Server.colon] ++ port

def listenAddr (host port : Bytes) : Except Bytes Bytes :=
  let port := if port = [] then defaultPort else port
  let bad := ascii "[web_viewer] port: " ++ quote port ++ ascii " is not a port number (0-65535)"
  match atoi port with
  | none => .error bad
  | some n => if n < 0 ∨ 65535 < n then .error bad else .ok (joinHostPort host (itoa n))

/-- `loadConfig`, from the opened file on. -/
def loadConfig (configPath text : Bytes) : Except Bytes Config := do
  let r ← scan quote {} (scanLines text)
  let sinks := (withJsonl r.sections).map Section.sink
  if sinks = [] then .error (ascii "no output sections with a jsonl_file found in " ++ quote configPath)
  else do
    let addr ← listenAddr quote r.viewerHost r.viewerPort
    return ⟨sinks, addr⟩

/-! ## White space and numbers -/

theorem isSpaceRune_byte (c : UInt8) (hc : c < 0x80) : isSpaceRune c.toNat = Server.isSpace c :=
  forall_byte (fun c => c < 0x80 → isSpaceRune c.toNat = Server.isSpace c) (by decide +kernel) c hc

theorem allSpace_ascii (s : Bytes) (h : ∀ c ∈ s, c < 0x80) : allSpace 0 s = s.all Server.isSpace := by
  induction s with
  | nil => rfl
  | cons c s ih =>
    have hc := h c List.mem_cons_self
    rw [allSpace, decodeRune_ascii c s hc, isSpaceRune_byte c hc, List.all_cons,
      ← ih fun d hd => h d (List.mem_cons_of_mem c hd)]
    rfl

/-- On ASCII text `strings.TrimSpace` removes what `std::isspace` is true of. -/
theorem trimSpace_ascii (s : Bytes) (h : ∀ c ∈ s, c < 0x80) : trimSpace s = Server.trim s := by
  have hright : trimRight s = s.rdropWhile Server.isSpace := by
    induction s with
    | nil => rfl
    | cons c s ih =>
      rw [trimRight, allSpace_ascii (c :: s) h, Server.rdropWhile_cons,
        ih fun d hd => h d (List.mem_cons_of_mem c hd)]
  have hleft : ∀ t : Bytes, (∀ c ∈ t, c < 0x80) → trimLeft 0 t = t.dropWhile Server.isSpace := by
    intro t ht
    induction t with
    | nil => rfl
    | cons c t ih =>
      have hc := ht c List.mem_cons_self
      rw [trimLeft, decodeRune_ascii c t hc, isSpaceRune_byte c hc, List.dropWhile_cons,
        ← ih fun d hd => ht d (List.mem_cons_of_mem c hd)]
      rfl
  unfold trimSpace
  rw [hright, hleft _ fun c hc => h c ((List.rdropWhile_prefix _ s).subset hc), Server.trim_eq]

theorem trim_dropCR (s : Bytes) : Server.trim (dropCR s) = Server.trim s := by
  unfold dropCR
  split
  · next hlast =>
    obtain ⟨t, rfl⟩ := List.getLast?_eq_some_iff.mp hlast
    rw [List.dropLast_concat, Server.trim_eq, Server.trim_eq, List.rdropWhile_concat_pos _ _ cr (by decide)]
  · rfl

/-- The digits behind the sign reach to the end. -/
theorem all_digits (s : Bytes) (h : (s.takeWhile isDigit).length = s.length) :
    s.takeWhile isDigit = s ∧ s.all isDigit = true := by
  have heq := (List.takeWhile_sublist isDigit (l := s)).eq_of_length h
  refine ⟨heq, ?_⟩
  rw [← heq]
  exact List.all_takeWhile

theorem atoi_digits (sign n : ℤ) (v signed : Bytes) (hlen : signed.length ≤ v.length)
    (h : (match (if signed.takeWhile isDigit = [] then none
        else some (sign * (decimal (signed.takeWhile isDigit) : ℤ),
          v.length - signed.length + (signed.takeWhile isDigit).length)) with
      | some (value, pos) => if -2 ^ 31 ≤ value ∧ value < 2 ^ 31 ∧ pos = v.length then some value else none
      | none => none) = some n) :
    (if signed = [] ∨ signed.all isDigit = false then none
      else if -2 ^ 63 ≤ sign * (decimal signed : ℤ) ∧ sign * (decimal signed : ℤ) < 2 ^ 63
        then some (sign * (decimal signed : ℤ))
      else none) = some n := by
  by_cases hnil : signed.takeWhile isDigit = []
  · rw [if_pos hnil] at h
    cases h
  · rw [if_neg hnil] at h
    dsimp only at h
    split at h
    · next hrange =>
      obtain ⟨hlow, hhigh, hpos⟩ := hrange
      obtain ⟨heq, hall⟩ := all_digits signed (by omega)
      rw [heq] at hlow hhigh h hnil
      rw [if_neg (by rw [hall]; simp [hnil]), if_pos ⟨by omega, by omega⟩]
      exact h
    · cases h

/-- What `std::stoi` reads from a trimmed text to its end, `strconv.Atoi` reads alike. -/
theorem atoi_stoi (s : Bytes) (n : ℤ) (h : Server.stoi (Server.trim s) = some n) :
    atoi (Server.trim s) = some n := by
  have hhead := Server.trim_head s
  generalize Server.trim s = v at h hhead
  have hblanks : v.takeWhile Server.isSpace = [] := by
    cases v with
    | nil => rfl
    | cons c v =>
      have hc := hhead c rfl
      exact List.takeWhile_cons_of_neg (by rw [hc]; exact Bool.false_ne_true)
  unfold Server.stoi Server.parseInteger at h
  rw [hblanks, List.length_nil] at h
  dsimp only [List.drop_zero] at h
  exact atoi_digits _ n v _ (by split <;> simp) h

end Minilog.Viewer
