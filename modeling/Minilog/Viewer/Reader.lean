import Minilog.Lib.Bytes

/-! The web viewer's file reader (`web-viewer/reader.go`): the line filter, the chain of rotated
files as one logical byte stream, and its forward and backward readers.

A file system step is answered by the directory it sees: `view k` is the directory at the `k`-th
`os.Stat`, `os.Open` or `readChunk` of a call, so that a chain that does not change is a constant
`view`. `bytes.ToLower` is the parameter `lower`, and the byte budget, a variable of the source, is a
parameter too. Offsets and sizes are natural numbers; `since` may be negative. -/
namespace Minilog.Viewer
open Lib
set_option autoImplicit false

/-! ## Filter -/

/-- `bytes.Index`: the first place `sep` stands at. -/
def index (s sep : Bytes) : Option ℕ :=
  if sep.isPrefixOf s then some 0
  else
    match s with
    | [] => none
    | _ :: t => (index t sep).map (· + 1)

def contains (s sep : Bytes) : Bool := (index s sep).isSome

structure Filter where
  severities : List Bytes
  facilities : List Bytes
  includes : List Bytes
  excludes : List Bytes
deriving DecidableEq

abbrev quote : UInt8 := 0x22

def matchStringField (lowered name : Bytes) (allowed : List Bytes) : Bool :=
  let key := [quote] ++ name ++ ascii "\":"
  match index lowered key with
  | none => false
  | some idx =>
    match (lowered.drop (idx + key.length)).dropWhile (fun c => c == space || c == tab) with
    | [] => false
    | c :: rest =>
      if c ≠ quote then false
      else
        match rest.findIdx? (· == quote) with
        | none => false
        | some stop => allowed.contains (rest.take stop)

def Filter.matches (lower : Bytes → Bytes) (f : Filter) (line : Bytes) : Bool :=
  let lowered := lower line
  if f.excludes.any (contains lowered) then false
  else if f.includes ≠ [] ∧ f.includes.any (contains lowered) = false then false
  else if f.severities ≠ [] ∧ matchStringField lowered (ascii "severity") f.severities = false then false
  else if f.facilities ≠ [] ∧ matchStringField lowered (ascii "facility") f.facilities = false then false
  else true

/-! ## The chain of files -/

/-- The contents of the files a path names. -/
abbrev Directory := Bytes → Option Bytes

structure Sink where
  name : Bytes
  path : Bytes
  maxFiles : ℕ
deriving DecidableEq

abbrev slash : UInt8 := 0x2F
abbrev dot : UInt8 := 0x2E

/-- `filepath.Ext`: from the last dot of the last path element on. -/
def ext (path : Bytes) : Bytes :=
  let tail := path.reverse.takeWhile fun c => c ≠ slash ∧ c ≠ dot
  match path.reverse.drop tail.length with
  | [] => []
  | c :: _ => if c = dot then dot :: tail.reverse else []

def trimSuffix (s suffix : Bytes) : Bytes :=
  if suffix.isSuffixOf s then s.take (s.length - suffix.length) else s

structure ChainFile where
  path : Bytes
  start : ℕ
  size : ℕ
deriving DecidableEq

structure FileChain where
  files : List ChainFile
  total : ℕ
deriving DecidableEq

/-- The names probed for generations `n`, ..., 1, oldest first. -/
def generations (stem ending : Bytes) : ℕ → List Bytes
  | 0 => []
  | n + 1 => (stem ++ [dot] ++ numeral (n + 1) ++ ending) :: generations stem ending n

def candidates (sink : Sink) : List Bytes :=
  let ending := ext sink.path
  generations (trimSuffix sink.path ending) ending sink.maxFiles ++ [sink.path]

theorem mem_generations_iff (head ending p : Bytes) (m : ℕ) :
    p ∈ generations head ending m ↔ ∃ n, 1 ≤ n ∧ n ≤ m ∧ p = head ++ [dot] ++ numeral n ++ ending := by
  induction m with
  | zero =>
    refine iff_of_false (List.not_mem_nil) ?_
    rintro ⟨n, h1, h0, -⟩
    omega
  | succ m ih =>
    rw [generations, List.mem_cons, ih]
    constructor
    · rintro (rfl | ⟨n, h1, hm, rfl⟩)
      · exact ⟨m + 1, by omega, le_refl _, rfl⟩
      · exact ⟨n, h1, by omega, rfl⟩
    · rintro ⟨n, h1, hm, rfl⟩
      by_cases hn : n = m + 1
      · exact .inl (by rw [hn])
      · exact .inr ⟨n, h1, by omega, rfl⟩

/-- The loop over the candidates: step `k` of the file system, `offset` bytes in front. -/
def statAll (view : ℕ → Directory) : ℕ → ℕ → List Bytes → FileChain
  | _, offset, [] => ⟨[], offset⟩
  | k, offset, path :: rest =>
    match view k path with
    | none => statAll view (k + 1) offset rest
    | some content =>
      if content.length = 0 then statAll view (k + 1) offset rest
      else
        let fc := statAll view (k + 1) (offset + content.length) rest
        ⟨⟨path, offset, content.length⟩ :: fc.files, fc.total⟩

def newFileChain (view : ℕ → Directory) (sink : Sink) : FileChain := statAll view 0 0 (candidates sink)

namespace FileChain

def tailOffset (fc : FileChain) : ℕ := fc.total

def empty (fc : FileChain) : Bool := fc.files.isEmpty

def fileAt (fc : FileChain) (logicalOffset : ℕ) : ℕ × ℕ :=
  let last := fc.files.length - 1
  let atEnd := (last, (fc.files[last]?.map ChainFile.size).getD 0)
  if logicalOffset ≥ fc.total then atEnd
  else
    match fc.files.findIdx? (fun f => decide (logicalOffset < f.start + f.size)) with
    | some i => (i, logicalOffset - (fc.files[i]?.map ChainFile.start).getD 0)
    | none => atEnd

end FileChain

/-! ## ReadForward -/

def maxLineBytes : ℕ := 1024 * 1024

/-- `bufio.ScanLines` removes one CR from the end of a token. -/
def dropCR (line : Bytes) : Bytes := if line.getLast? = some cr then line.dropLast else line

/-- The tokens a `bufio.Scanner` with a buffer of `maxLineBytes` yields: it stops for good at the first
line that does not fit. -/
def scanTokens (text : Bytes) : List Bytes :=
  ((scanLines text).takeWhile fun l => decide (l.length < maxLineBytes)).map dropCR

structure Page where
  lines : List Bytes
  offsets : List ℕ
  firstOffset : ℕ
  nextOffset : ℕ
deriving DecidableEq

def Page.entries (page : Page) : List (ℕ × Bytes) := page.offsets.zip page.lines

/-- The variables of `ReadForward`: `lines` and `offsets` grow together, so they are one list here. -/
structure Forward where
  collected : List (ℕ × Bytes)
  collectedBytes : ℕ
  budgetHit : Bool
  firstOffset : ℕ
  nextOffset : ℕ
deriving DecidableEq

/-- The scan loop of one file, over the tokens left and with the next token at `currentLogical`. -/
def scanFile (keeps : Bytes → Bool) (count maxResponseBytes fileEnd : ℕ) : List Bytes → ℕ → Forward → Forward
  | [], _, st => st
  | raw :: rest, currentLogical, st =>
    if st.collected.length < count then
      let next := min (currentLogical + (raw.length + 1)) fileEnd
      if 0 < raw.length ∧ keeps raw = true then
        if 0 < st.collected.length ∧ maxResponseBytes < st.collectedBytes + raw.length then
          { st with budgetHit := true }
        else
          scanFile keeps count maxResponseBytes fileEnd rest next
            { collected := st.collected ++ [(currentLogical, raw)]
              collectedBytes := st.collectedBytes + raw.length
              budgetHit := st.budgetHit
              firstOffset := if st.collected.length = 0 then currentLogical else st.firstOffset
              nextOffset := next }
      else scanFile keeps count maxResponseBytes fileEnd rest next { st with nextOffset := next }
    else st

/-- The loop over the files, `physOffset` bytes into the first of those left. -/
def readFiles (view : ℕ → Directory) (keeps : Bytes → Bool) (count maxResponseBytes : ℕ) :
    ℕ → List ChainFile → ℕ → Forward → Forward
  | _, [], _, st => st
  | k, cf :: rest, physOffset, st =>
    if st.collected.length < count ∧ st.budgetHit = false then
      match view k cf.path with
      | none => readFiles view keeps count maxResponseBytes (k + 1) rest 0 st
      | some content =>
        let window := (content.drop physOffset).take (cf.size - physOffset)
        readFiles view keeps count maxResponseBytes (k + 1) rest 0
          (scanFile keeps count maxResponseBytes (cf.start + cf.size) (scanTokens window)
            (cf.start + physOffset) st)
    else st

def FileChain.readForward (fc : FileChain) (view : ℕ → Directory) (lower : Bytes → Bytes) (maxResponseBytes : ℕ)
    (logicalOffset count : ℕ) (f : Filter) : Page :=
  if fc.empty ∨ count = 0 then ⟨[], [], logicalOffset, logicalOffset⟩
  else
    let (fileIdx, physOffset) := fc.fileAt logicalOffset
    let st := readFiles view (f.matches lower) count maxResponseBytes 0 (fc.files.drop fileIdx) physOffset
      ⟨[], 0, false, 0, logicalOffset⟩
    if st.collected.length = 0 then ⟨[], [], logicalOffset, logicalOffset⟩
    else ⟨st.collected.map Prod.snd, st.collected.map Prod.fst, st.firstOffset, st.nextOffset⟩

/-! ## ReadBackward -/

def backwardChunkSize : ℕ := 64 * 1024

/-- The bytes of a file in `[start, stop)`; a short read is an error. -/
def readChunk (dir : Directory) (path : Bytes) (start stop : ℕ) : Option Bytes :=
  match dir path with
  | none => none
  | some content => if content.length < stop then none else some ((content.drop start).take (stop - start))

/-- `bytes.TrimRight(raw, "\r")`. -/
def trimRightCR (raw : Bytes) : Bytes := raw.rdropWhile (· == cr)

/-- The variables of `ReadBackward`; `collected` is newest first, `reads` counts the chunks read. -/
structure Backward where
  collected : List (ℕ × Bytes)
  collectedBytes : ℕ
  stop : Bool
  carry : Bytes
  carryTooLong : Bool
  reads : ℕ
deriving DecidableEq

/-- What a request asks for, the same for the whole walk. -/
structure Request where
  keeps : Bytes → Bool
  count : ℕ
  maxResponseBytes : ℕ
  since : ℤ

namespace Request

def full (r : Request) (w : Backward) : Bool := decide (r.count ≤ w.collected.length)

/-- The second half of the closure `take`: a complete line, `stop` for its return value `false`. -/
def collect (r : Request) (lineStart : ℕ) (raw : Bytes) (w : Backward) : Backward :=
  if 0 < raw.length ∧ r.keeps raw = true then
    if 0 < w.collected.length ∧ r.maxResponseBytes < w.collectedBytes + raw.length then { w with stop := true }
    else
      { w with collected := w.collected ++ [(lineStart, raw)]
               collectedBytes := w.collectedBytes + raw.length }
  else w

/-- The closure `take`, with `stop = !take(...)` of its callers. -/
def take (r : Request) (start : ℕ) (seg : Bytes) (physPos : ℕ) (joinCarry : Bool) (w : Backward) : Backward :=
  let lineStart := start + physPos
  if 0 ≤ r.since ∧ (lineStart : ℤ) < r.since then { w with stop := true }
  else if joinCarry then
    let joined := { w with carry := [], carryTooLong := false }
    if w.carryTooLong = true ∨ maxLineBytes < seg.length + w.carry.length then joined
    else r.collect lineStart (trimRightCR (seg ++ w.carry)) joined
  else r.collect lineStart (trimRightCR seg) w

/-- The walk through one chunk, right to left: `i` bytes are left, the segment being built ends at `stop`. -/
def walkChunk (r : Request) (start chunkStart : ℕ) (buf : Bytes) : ℕ → ℕ → Backward → ℕ × Backward
  | 0, stop, w => (stop, w)
  | i + 1, stop, w =>
    if w.stop = false ∧ r.full w = false then
      if buf[i]? = some lf then
        walkChunk r start chunkStart buf i i
          (r.take start ((buf.drop (i + 1)).take (stop - (i + 1))) (chunkStart + i + 1) (stop == buf.length) w)
      else walkChunk r start chunkStart buf i stop w
    else (stop, w)

/-- What stays of a chunk: the tail of a line that starts below it. -/
def keepTail (buf : Bytes) (stop : ℕ) (w : Backward) : Backward :=
  if w.carryTooLong = true ∨ maxLineBytes < w.carry.length + stop then
    { w with carry := [], carryTooLong := true }
  else { w with carry := buf.take stop ++ w.carry }

/-- The loop over the chunks of one file; every pass lowers `readEnd`, so `readEnd` passes are enough. -/
def walkFile (r : Request) (view : ℕ → Directory) (chunk : ℕ) (cf : ChainFile) : ℕ → ℕ → Backward → Backward
  | 0, _, w => w
  | fuel + 1, readEnd, w =>
    if 0 < readEnd ∧ w.stop = false ∧ r.full w = false then
      let chunkStart := readEnd - chunk
      match readChunk (view w.reads) cf.path chunkStart readEnd with
      | none => { w with reads := w.reads + 1 }
      | some buf =>
        let (stop, w) := walkChunk r cf.start chunkStart buf buf.length buf.length
          { w with reads := w.reads + 1 }
        if w.stop = true ∨ r.full w = true then w
        else if chunkStart = 0 then r.take cf.start (buf.take stop) 0 (stop == buf.length) w
        else walkFile r view chunk cf fuel chunkStart (keepTail buf stop w)
    else w

/-- The loop over the files, newest first, `physOffset` bytes into the first of those left. -/
def walkFiles (r : Request) (view : ℕ → Directory) (chunk : ℕ) : List ChainFile → ℕ → Backward → Backward
  | [], _, w => w
  | cf :: rest, physOffset, w =>
    if w.stop = false ∧ r.full w = false then
      let w := walkFile r view chunk cf physOffset physOffset { w with carry := [], carryTooLong := false }
      walkFiles r view chunk rest ((rest.head?.map ChainFile.size).getD 0) w
    else w

end Request

/-- Where a backward read starts: the end of the previous file when the offset is the start of one. -/
def FileChain.backwardPlace (fc : FileChain) (logicalOffset : ℕ) : ℕ × ℕ :=
  match fc.fileAt logicalOffset with
  | (fileIdx + 1, 0) => (fileIdx, (fc.files[fileIdx]?.map ChainFile.size).getD 0)
  | place => place

/-- `ReadBackward` with chunks of `chunk` bytes. -/
def FileChain.readBackwardBy (chunk : ℕ) (fc : FileChain) (view : ℕ → Directory) (lower : Bytes → Bytes)
    (maxResponseBytes : ℕ) (logicalOffset count : ℕ) (f : Filter) (since : ℤ) : Page :=
  if fc.empty ∨ count = 0 ∨ logicalOffset = 0 then ⟨[], [], logicalOffset, logicalOffset⟩
  else if 0 ≤ since ∧ (logicalOffset : ℤ) ≤ since then ⟨[], [], logicalOffset, logicalOffset⟩
  else
    let r : Request := ⟨f.matches lower, count, maxResponseBytes, since⟩
    let (fileIdx, physOffset) := fc.backwardPlace logicalOffset
    let w := r.walkFiles view chunk (fc.files.take (fileIdx + 1)).reverse physOffset ⟨[], 0, false, [],
      false, 0⟩
    let collected := (w.collected.take count).reverse
    match collected with
    | [] => ⟨[], [], logicalOffset, logicalOffset⟩
    | first :: _ => ⟨collected.map Prod.snd, collected.map Prod.fst, first.1, logicalOffset⟩

def FileChain.readBackward : FileChain → (ℕ → Directory) → (Bytes → Bytes) → ℕ → ℕ → ℕ → Filter → ℤ → Page :=
  FileChain.readBackwardBy backwardChunkSize

end Minilog.Viewer
