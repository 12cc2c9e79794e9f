import Minilog.Output.Paths
import Minilog.Server.Config

/-! Which files belong to which sink.

`requireDistinctFiles` compares the configured paths as written; a rotation also touches the names it
derives from them (`family`). For accepted configurations the families of two configured files are
disjoint exactly when neither file is named like a generation of the other. -/
namespace Minilog.Server
open Lib
open Minilog.Output
set_option autoImplicit false

/-- The highest generation a rotation may create: `rotate` probes 1000 generations when `max_files`
is 0 and then moves each one up by one. -/
def generationLimit (maxFiles : ℕ) : ℕ := if maxFiles = 0 then 1000 + 1 else maxFiles

/-- A configured file: its path and the `max_files` of its section. -/
structure OwnedFile where
  path : Bytes
  maxFiles : ℕ
deriving DecidableEq

/-- The paths `LogFile` opens, renames or removes on behalf of a file. -/
def OwnedFile.family (f : OwnedFile) : Set Bytes :=
  {p | ∃ n, n ≤ generationLimit f.maxFiles ∧ p = slotPath f.path n}

/-- `p` lies beside the file and is named like one of its generations. -/
def OwnedFile.HasGenerationName (f : OwnedFile) (p : Bytes) : Prop :=
  directory p = directory f.path ∧
    ∃ n, 1 ≤ n ∧ n ≤ generationLimit f.maxFiles ∧ filename p = generationName f.path n

def OutputConfig.files (out : OutputConfig) : List OwnedFile :=
  ([out.textFile, out.jsonlFile].filter fun p => !p.isEmpty).map fun p => ⟨p, out.maxFiles⟩

def Config.files (cfg : Config) : List OwnedFile := cfg.outputs.flatMap OutputConfig.files

/-! ## Accepted configurations -/

/-- A claimed file is new, and stays claimed for the files `later`. -/
theorem claim_ok (owners owners' : List (Bytes × Bytes)) (file owner : Bytes)
    (h : claim owners file owner = .ok owners') (later : List Bytes) (hnodup : later.Nodup)
    (hfresh : ∀ p ∈ later, p ∉ owners'.map Prod.fst) :
    ((if file = [] then [] else [file]) ++ later).Nodup ∧
      ∀ p ∈ (if file = [] then [] else [file]) ++ later, p ∉ owners.map Prod.fst := by
  unfold claim at h
  by_cases hf : file = []
  · rw [if_pos hf] at h ⊢
    cases h
    exact ⟨hnodup, hfresh⟩
  · rw [if_neg hf] at h ⊢
    cases hl : owners.lookup file with
    | some first =>
      rw [hl] at h
      cases h
    | none =>
      rw [hl] at h
      cases h
      have hnew : file ∉ owners.map Prod.fst := by
        intro hmem
        obtain ⟨p, hp, hpf⟩ := List.mem_map.mp hmem
        have hnone := List.lookup_eq_none_iff.mp hl p hp
        simp [hpf] at hnone
      simp only [List.map_cons, List.mem_cons, not_or] at hfresh
      refine ⟨List.nodup_cons.mpr ⟨fun hmem => (hfresh file hmem).1 rfl, hnodup⟩, ?_⟩
      intro p hp
      rcases List.mem_cons.mp hp with rfl | hp
      · exact hnew
      · exact (hfresh p hp).2

theorem files_path (out : OutputConfig) :
    out.files.map OwnedFile.path =
      (if out.textFile = [] then [] else [out.textFile]) ++
      (if out.jsonlFile = [] then [] else [out.jsonlFile]) := by
  unfold OutputConfig.files
  cases out.textFile with
  | nil =>
    cases out.jsonlFile with
    | nil => rfl
    | cons d j => rfl
  | cons c t =>
    cases out.jsonlFile with
    | nil => rfl
    | cons d j => rfl

/-- `requireDistinctFiles` accepts only outputs whose files are pairwise different. -/
theorem claimAll_ok (outputs : List OutputConfig) (owners : List (Bytes × Bytes))
    (h : claimAll owners outputs = .ok ()) :
    ((outputs.flatMap OutputConfig.files).map OwnedFile.path).Nodup ∧
      ∀ p ∈ (outputs.flatMap OutputConfig.files).map OwnedFile.path, p ∉ owners.map Prod.fst := by
  induction outputs generalizing owners with
  | nil => exact ⟨List.nodup_nil, by simp⟩
  | cons out rest ih =>
    unfold claimAll at h
    obtain ⟨owners₁, h₁, h⟩ := bind_eq_ok _ _ _ h
    obtain ⟨owners₂, h₂, h⟩ := bind_eq_ok _ _ _ h
    obtain ⟨hnodup, hfresh⟩ := ih owners₂ h
    obtain ⟨hnodup₂, hfresh₂⟩ := claim_ok _ _ _ _ h₂ _ hnodup hfresh
    obtain ⟨hnodup₁, hfresh₁⟩ := claim_ok _ _ _ _ h₁ _ hnodup₂ hfresh₂
    rw [List.flatMap_cons, List.map_append, files_path, List.append_assoc]
    exact ⟨hnodup₁, hfresh₁⟩

theorem loadConfig_distinct (makeAddress : Bytes → Option Address) (tree : Tree) (cfg : Config)
    (h : loadConfig makeAddress tree = .ok cfg) : (cfg.files.map OwnedFile.path).Nodup := by
  unfold loadConfig at h
  obtain ⟨server, -, h⟩ := bind_eq_ok _ _ _ h
  obtain ⟨outputs, -, h⟩ := bind_eq_ok _ _ _ h
  obtain ⟨_, -, h⟩ := bind_eq_ok _ _ _ h
  obtain ⟨_, hdistinct, h⟩ := bind_eq_ok _ _ _ h
  obtain ⟨_, -, h⟩ := bind_eq_ok _ _ _ h
  obtain ⟨forwarding, -, h⟩ := bind_eq_ok _ _ _ h
  obtain ⟨_, -, h⟩ := bind_eq_ok _ _ _ h
  cases h
  exact (claimAll_ok outputs [] hdistinct).1

/-! ## Families -/

/-- In normal form, being a generation of a file is a matter of names. -/
theorem hasGenerationName_iff (f : OwnedFile) (p : Bytes) (hf : Normalised f.path) :
    f.HasGenerationName p ↔ ∃ n, 1 ≤ n ∧ n ≤ generationLimit f.maxFiles ∧ p = slotPath f.path n := by
  constructor
  · rintro ⟨hdir, n, hn, hle, hname⟩
    refine ⟨n, hn, hle, ?_⟩
    rw [slotPath, if_neg (by omega), rotatedPath_normalised f.path n hf, ← hdir, ← hname,
      directory_append_filename]
  · rintro ⟨n, hn, hle, hp⟩
    rw [slotPath, if_neg (by omega)] at hp
    have hname : filename p = generationName f.path n := by rw [hp, filename_rotatedPath]
    refine ⟨?_, n, hn, hle, hname⟩
    have hsplit := directory_append_filename p
    rw [hname, hp, rotatedPath_normalised f.path n hf] at hsplit
    rw [hp, rotatedPath_normalised f.path n hf]
    exact List.append_cancel_right hsplit

theorem family_disjoint_iff (p q : OwnedFile) (hne : p.path ≠ q.path) (hp : Normalised p.path)
    (hq : Normalised q.path) :
    Disjoint p.family q.family ↔ ¬ p.HasGenerationName q.path ∧ ¬ q.HasGenerationName p.path := by
  rw [Set.disjoint_left, hasGenerationName_iff p q.path hp, hasGenerationName_iff q p.path hq]
  constructor
  · intro h
    refine ⟨?_, ?_⟩
    · rintro ⟨n, -, hle, hn⟩
      exact h ⟨n, hle, hn⟩ ⟨0, Nat.zero_le _, rfl⟩
    · rintro ⟨n, -, hle, hn⟩
      exact h ⟨0, Nat.zero_le _, rfl⟩ ⟨n, hle, hn⟩
  · rintro ⟨hpq, hqp⟩ x ⟨n, hn, hxn⟩ ⟨m, hm, hxm⟩
    by_cases hn0 : n = 0
    · by_cases hm0 : m = 0
      · rw [hn0] at hxn
        rw [hm0] at hxm
        exact hne (hxn.symm.trans hxm)
      · rw [hn0] at hxn
        exact hqp ⟨m, by omega, hm, hxn.symm.trans hxm⟩
    · by_cases hm0 : m = 0
      · rw [hm0] at hxm
        exact hpq ⟨n, by omega, hn, hxm.symm.trans hxn⟩
      · -- two rotated names are equal only for the same file
        rw [hxn, slotPath, slotPath, if_neg hn0, if_neg hm0] at hxm
        exact hne (rotatedPath_eq p.path q.path n m hp hq hxm)

/-- Any two configured files of an accepted configuration, in normalised paths, have disjoint families
exactly when neither is named like a generation of the other. -/
theorem loadConfig_families_disjoint (makeAddress : Bytes → Option Address) (tree : Tree) (cfg : Config)
    (h : loadConfig makeAddress tree = .ok cfg) (i j : ℕ) (hij : i ≠ j) (p q : OwnedFile)
    (hp : cfg.files[i]? = some p) (hq : cfg.files[j]? = some q) (hpn : Normalised p.path)
    (hqn : Normalised q.path) :
    Disjoint p.family q.family ↔ ¬ p.HasGenerationName q.path ∧ ¬ q.HasGenerationName p.path := by
  apply family_disjoint_iff p q ?_ hpn hqn
  intro heq
  have hnodup := loadConfig_distinct makeAddress tree cfg h
  have hi : (cfg.files.map OwnedFile.path)[i]? = some p.path := by rw [List.getElem?_map, hp]; rfl
  have hj : (cfg.files.map OwnedFile.path)[j]? = some p.path := by rw [List.getElem?_map, hq, heq]; rfl
  obtain ⟨hlt, -⟩ := List.getElem?_eq_some_iff.mp hi
  exact hij ((List.getElem?_inj hlt hnodup).mp (hi.trans hj.symm))

/-- A rotated section whose second file is named like the first generation of the first. -/
def sharedNames : Tree :=
  [(ascii "output.main", ⟨[], [(ascii "text_file", ascii "/d/a.log"), (ascii "jsonl_file", ascii "/d/a.1.log"),
    (ascii "max_size", ascii "1KB")]⟩)]

theorem loadConfig_sharedNames :
    ∃ cfg, loadConfig (fun _ => some .v4) sharedNames = .ok cfg ∧
      ∃ p q, cfg.files[0]? = some p ∧ cfg.files[1]? = some q ∧ Normalised p.path ∧ Normalised q.path ∧
        ¬ Disjoint p.family q.family := by
  refine ⟨_, rfl, ⟨ascii "/d/a.log", 10⟩, ⟨ascii "/d/a.1.log", 10⟩, rfl, rfl,
    by decide +kernel, by decide +kernel, ?_⟩
  rw [Set.not_disjoint_iff]
  exact ⟨ascii "/d/a.1.log", ⟨1, by decide, by decide +kernel⟩, ⟨0, by decide, rfl⟩⟩

/-- A section with the usual pair of files. -/
def apartNames : Tree :=
  [(ascii "output.main", ⟨[], [(ascii "text_file", ascii "/d/a.log"),
    (ascii "jsonl_file", ascii "/d/a.jsonl")]⟩)]

theorem loadConfig_apartNames :
    ∃ cfg, loadConfig (fun _ => some .v4) apartNames = .ok cfg ∧
      (Disjoint (OwnedFile.family ⟨ascii "/d/a.log", 10⟩) (OwnedFile.family ⟨ascii "/d/a.jsonl", 10⟩) ↔
        ¬ OwnedFile.HasGenerationName ⟨ascii "/d/a.log", 10⟩ (ascii "/d/a.jsonl") ∧
        ¬ OwnedFile.HasGenerationName ⟨ascii "/d/a.jsonl", 10⟩ (ascii "/d/a.log")) :=
  ⟨_, rfl, loadConfig_families_disjoint (fun _ => some .v4) apartNames _ rfl 0 1 (by decide)
    ⟨ascii "/d/a.log", 10⟩ ⟨ascii "/d/a.jsonl", 10⟩ rfl rfl (by decide +kernel) (by decide +kernel)⟩

end Minilog.Server
