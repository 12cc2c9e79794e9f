import Minilog.Viewer.Records

/-! A log that is being written: the server appends whole records to the active file and rotates, which drops
the oldest generation once there are `maxFiles` of them. `Log.stores` says what the viewer finds in the
directory at any moment. -/
namespace Minilog.Viewer
open Lib
set_option autoImplicit false

/-- The files of a sink that keeps `n` generations; `archived` starts with generation 1. The records that
rotations have dropped are remembered, oldest first. -/
structure Log (n : ℕ) where
  archived : List (List Record)
  active : List Record
  dropped : List Record
  bounded : archived.length ≤ n

namespace Log

variable {n : ℕ}

def append (log : Log n) (r : Record) : Log n := { log with active := log.active ++ [r] }

def rotate (log : Log n) : Log n where
  archived := (log.active :: log.archived).take n
  active := []
  dropped := log.dropped ++ ((log.active :: log.archived).drop n).reverse.flatten
  bounded := List.length_take_le n _

def records (log : Log n) : List Record := (log.active :: log.archived).reverse.flatten

/-- Everything that was ever written. -/
def history (log : Log n) : List Record := log.dropped ++ log.records

/-- The number of bytes that rotations have dropped. -/
def evicted (log : Log n) : ℕ := (recordsText log.dropped).length

theorem records_append (log : Log n) (r : Record) : (log.append r).records = log.records ++ [r] := by
  simp only [records, append, List.reverse_cons, List.flatten_append, List.flatten_singleton, List.append_assoc]

theorem history_append (log : Log n) (r : Record) : (log.append r).history = log.history ++ [r] := by
  rw [history, records_append, history, List.append_assoc]
  rfl

theorem history_rotate (log : Log n) : log.rotate.history = log.history := by
  have hcut : (log.active :: log.archived).reverse =
      ((log.active :: log.archived).drop n).reverse ++ ((log.active :: log.archived).take n).reverse := by
    rw [← List.reverse_append, List.take_append_drop]
  unfold history records
  rw [hcut, List.flatten_append]
  simp only [rotate, List.reverse_cons, List.flatten_append, List.flatten_singleton, List.append_nil,
    List.append_assoc]

/-! ## The directory -/

def generationPath (sink : Sink) (i : ℕ) : Bytes :=
  trimSuffix sink.path (ext sink.path) ++ [dot] ++ numeral i ++ ext sink.path

/-- The directory the viewer sees. -/
def directory (log : Log n) (sink : Sink) : Directory := fun path =>
  if path = sink.path then some (recordsText log.active)
  else
    match (List.range log.archived.length).find? fun i => path = generationPath sink (i + 1) with
    | none => none
    | some i => (log.archived[i]?).map recordsText

theorem generationPath_ne (sink : Sink) (i : ℕ) : generationPath sink i ≠ sink.path := by
  intro h
  have hlen := congrArg List.length h
  have hstem : sink.path.length ≤ (trimSuffix sink.path (ext sink.path)).length + (ext sink.path).length := by
    unfold trimSuffix
    split
    · rw [List.length_take]
      omega
    · omega
  simp only [generationPath, List.length_append, List.length_singleton] at hlen
  omega

theorem generationPath_injective (sink : Sink) (i j : ℕ)
    (h : generationPath sink i = generationPath sink j) : i = j := by
  unfold generationPath at h
  have hnum := List.append_cancel_right h
  rw [List.append_assoc, List.append_assoc] at hnum
  exact numeral_injective i j (List.append_cancel_left (List.append_cancel_left hnum))

theorem directory_generation (log : Log n) (sink : Sink) (i : ℕ) :
    log.directory sink (generationPath sink (i + 1)) = (log.archived[i]?).map recordsText := by
  unfold directory
  rw [if_neg (generationPath_ne sink (i + 1))]
  have hother : ∀ j, i ≠ j → generationPath sink (i + 1) ≠ generationPath sink (j + 1) :=
    fun j hne h => hne (Nat.succ.inj (generationPath_injective sink _ _ h))
  by_cases hi : i < log.archived.length
  · have hfind : (List.range log.archived.length).find?
        (fun j => decide (generationPath sink (i + 1) = generationPath sink (j + 1))) = some i := by
      refine List.find?_range_eq_some.mpr ⟨decide_eq_true rfl, List.mem_range.mpr hi, ?_⟩
      intro j hj
      rw [Bool.not_eq_true', decide_eq_false_iff_not]
      exact hother j (by omega)
    rw [hfind]
  · have hnone : (List.range log.archived.length).find?
        (fun j => decide (generationPath sink (i + 1) = generationPath sink (j + 1))) = none := by
      refine List.find?_range_eq_none.mpr ?_
      intro j hj
      rw [Bool.not_eq_true', decide_eq_false_iff_not]
      exact hother j (by omega)
    rw [hnone, List.getElem?_eq_none (by omega)]
    rfl

theorem directory_generations (log : Log n) (sink : Sink) (m : ℕ) :
    (generations (trimSuffix sink.path (ext sink.path)) (ext sink.path) m).filterMap (log.directory sink) =
      (log.archived.take m).reverse.map recordsText := by
  induction m with
  | zero => rfl
  | succ m ih =>
    have hpath : trimSuffix sink.path (ext sink.path) ++ [dot] ++ numeral (m + 1) ++ ext sink.path =
        generationPath sink (m + 1) := rfl
    rw [generations, hpath, List.filterMap_cons, directory_generation, ih, List.take_add_one]
    cases log.archived[m]? with
    | none => rw [Option.toList_none, List.append_nil]; rfl
    | some g => rw [Option.toList_some, List.reverse_append]; rfl

/-- The viewer finds the records of the log, oldest first. -/
theorem stores (log : Log n) (sink : Sink) (hn : n = sink.maxFiles) :
    Stores (log.directory sink) sink log.records := by
  apply stores_of_groups
  have hactive : log.directory sink sink.path = some (recordsText log.active) := if_pos rfl
  unfold candidates
  rw [List.filterMap_append, directory_generations, List.take_of_length_le (hn ▸ log.bounded),
    List.filterMap_cons_some hactive, List.filterMap_nil, List.reverse_cons, List.map_append]
  rfl

end Log

/-! ## Records of one character, for the runs shown later -/

def recordOf (c : UInt8) (h : c ≠ lf ∧ c ≠ cr) : Record where
  text := [c]
  nonempty := List.cons_ne_nil _ _
  oneLine := fun hm => h.1 (List.mem_singleton.mp hm).symm
  plain := ⟨show 1 < maxLineBytes by decide, fun hl => h.2 (Option.some.inj hl)⟩

def one : Record := recordOf 0x31 (by decide)
def two : Record := recordOf 0x32 (by decide)
def three : Record := recordOf 0x33 (by decide)

def oneGeneration : Sink := ⟨ascii "s", ascii "/l/s.jsonl", 1⟩

/-- A log that holds one record. -/
def oneRecord : Log 1 := ⟨[], [one], [], Nat.zero_le 1⟩

end Minilog.Viewer
