import Minilog.Parser.Grammar

/-! The server's configuration (`config/config.hpp`, `config/config.cpp`): the checks of `loadConfig` over
the property tree that `read_ini` builds, with the text of every error.

`read_ini` and `make_address` are library code: the tree is an argument here, and `makeAddress` is a
parameter that says whether a text is an address and of which family. -/
namespace Minilog.Server
open Lib
open Minilog.Parser
set_option autoImplicit false

/-- The message of a `std::runtime_error`. -/
abbrev Fallible := Except Bytes

/-- One top-level node of the tree: its own data and the keys under it. -/
structure Node where
  data : Bytes := []
  keys : List (Bytes × Bytes) := []
deriving DecidableEq

abbrev Tree := List (Bytes × Node)

def Node.get (node : Node) (key : Bytes) : Option Bytes := node.keys.lookup key

/-- `tree.get_optional<std::string>("section.key")`. -/
def Tree.get (tree : Tree) (sec key : Bytes) : Option Bytes := (tree.lookup sec).bind fun node => node.get key

inductive Address where
  | v4
  | v6
deriving DecidableEq

def kMaxFilesLimit : ℕ := 1000

structure OutputConfig where
  name : Bytes := []
  textFile : Bytes := []
  jsonlFile : Bytes := []
  maxSize : ℕ := 0
  maxFiles : ℕ := 10
  facilities : List ℕ := []
  excludedFacilities : List ℕ := []
  includeMalformed : Bool := true
deriving DecidableEq

structure ForwardingConfig where
  enabled : Bool := false
  host : Bytes := []
  port : ℕ := 514
  maxMessageSize : ℕ := 2048
  facilities : List ℕ := []
  excludedFacilities : List ℕ := []
deriving DecidableEq

structure Config where
  host : Bytes := ascii "0.0.0.0"
  udpPort : ℕ := 514
  workers : ℕ := 4
  maxQueueBytes : ℕ := 16 * 1024 * 1024
  outputs : List OutputConfig := []
  forwarding : ForwardingConfig := {}
deriving DecidableEq

/-! ## Characters and numbers -/

/-- `std::isspace` in the C locale. -/
def isSpace (c : UInt8) : Bool := c = space || (0x09 ≤ c && c ≤ 0x0D)

def toLower (c : UInt8) : UInt8 := if 0x41 ≤ c && c ≤ 0x5A then c + 0x20 else c

def trim (s : Bytes) : Bytes := (s.dropWhile isSpace).rdropWhile isSpace

/-- `strtol` and its relatives, base 10: the value and how many bytes it takes, nothing if there are no
digits. -/
def parseInteger (raw : Bytes) : Option (ℤ × ℕ) :=
  let blanks := (raw.takeWhile isSpace).length
  let (sign, signed) :=
    match raw.drop blanks with
    | 0x2D :: rest => ((-1 : ℤ), rest)
    | 0x2B :: rest => (1, rest)
    | rest => (1, rest)
  let digits := signed.takeWhile isDigit
  if digits = [] then none else some (sign * (decimal digits : ℤ), raw.length - signed.length + digits.length)

/-- `std::stoi(raw, &pos)` with `pos == raw.size()`. -/
def stoi (raw : Bytes) : Option ℤ :=
  match parseInteger raw with
  | some (value, pos) => if -2 ^ 31 ≤ value ∧ value < 2 ^ 31 ∧ pos = raw.length then some value else none
  | none => none

/-- `std::stoul(raw, &pos)` with `pos == raw.size()`: a minus sign wraps around. -/
def stoul (raw : Bytes) : Option ℕ :=
  match parseInteger raw with
  | some (value, pos) => if value.natAbs < 2 ^ 64 ∧ pos = raw.length then some (value % 2 ^ 64).toNat else none
  | none => none

/-- `if (wrong) throw std::runtime_error(message);` -/
def refuse (wrong : Prop) [Decidable wrong] (message : Bytes) : Fallible Unit :=
  if wrong then .error message else .ok ()

def quoted (value : Bytes) : Bytes := ascii "'" ++ value ++ ascii "'"

/-! ## Checks -/

variable (makeAddress : Bytes → Option Address)

def bracketed (value : Bytes) : Bool := value.contains 0x5B || value.contains 0x5D

def colon : UInt8 := 0x3A

def strayPort (value : Bytes) : Bool := makeAddress value == some .v4 && value.contains colon

def requireAddress (label value : Bytes) : Fallible Unit :=
  if makeAddress value = none ∨ bracketed value = true ∨ strayPort makeAddress value = true then
    .error (ascii "Invalid " ++ label ++ ascii ": " ++ quoted value ++
      ascii " is not an IP address (names are not resolved)")
  else .ok ()

def requireDestinationHost (label value : Bytes) : Fallible Unit :=
  let looksLikeUrlOrPort := value.contains colon || value.contains 0x2F
  let digitsAndDots := value.all fun c => isDigit c || c = 0x2E
  if bracketed value = true ∨ value.any isSpace = true ∨ strayPort makeAddress value = true ∨
      (makeAddress value = none ∧ (looksLikeUrlOrPort = true ∨ digitsAndDots = true)) then
    .error (ascii "Invalid " ++ label ++ ascii ": " ++ quoted value ++
      ascii " is neither an IP address nor a hostname (the port belongs in the 'port' key, not here)")
  else .ok ()

def requireInt (raw : Option Bytes) (label : Bytes) (defaultVal : ℤ) : Fallible ℤ :=
  match raw with
  | none => .ok defaultVal
  | some raw =>
    match stoi raw with
    | some val => .ok val
    | none => .error (label ++ ascii " = " ++ quoted raw ++ ascii " is not a whole number")

def requireUint32 (raw : Option Bytes) (label : Bytes) (defaultVal : ℕ) : Fallible ℕ :=
  match raw with
  | none => .ok defaultVal
  | some raw =>
    let bad := label ++ ascii " = " ++ quoted raw ++ ascii " is not a whole number between 0 and " ++
      numeral (2 ^ 32 - 1)
    match stoul raw with
    | some val => if raw.head? = some 0x2D ∨ 2 ^ 32 ≤ val then .error bad else .ok val
    | none => .error bad

def requireBool (raw : Option Bytes) (label : Bytes) (defaultVal : Bool) : Fallible Bool :=
  match raw with
  | none => .ok defaultVal
  | some raw =>
    if raw = ascii "true" ∨ raw = ascii "1" then .ok true
    else if raw = ascii "false" ∨ raw = ascii "0" then .ok false
    else .error (label ++ ascii " = " ++ quoted raw ++ ascii " is not 'true', 'false', '1' or '0'")

/-! ## Facilities -/

def kFacilityAliases : List (Bytes × ℕ) :=
  [("kern", 0), ("kernel", 0), ("user", 1), ("mail", 2), ("daemon", 3), ("system", 3), ("auth", 4),
    ("security", 4), ("syslog", 5), ("lpr", 6), ("news", 7), ("uucp", 8), ("clock", 9), ("cron", 9),
    ("authpriv", 10), ("ftp", 11), ("ntp", 12), ("audit", 13), ("logaudit", 13), ("alert", 14),
    ("logalert", 14), ("clock2", 15), ("local0", 16), ("local1", 17), ("local2", 18), ("local3", 19),
    ("local4", 20), ("local5", 21), ("local6", 22), ("local7", 23)].map fun p => (ascii p.1, p.2)

def equalsIgnoreCase (a b : Bytes) : Bool := a.map toLower == b.map toLower

def facilityFromName (name : Bytes) : Option ℕ :=
  (kFacilityAliases.find? fun p => equalsIgnoreCase p.1 name).map Prod.snd

/-- `boost::algorithm::split` at commas: the pieces between them. -/
def splitCommas : Bytes → List Bytes
  | [] => [[]]
  | c :: s =>
    if c = 0x2C then [] :: splitCommas s
    else
      match splitCommas s with
      | [] => [[c]]
      | piece :: rest => (c :: piece) :: rest

def facilityTokens (raw : Bytes) : List Bytes :=
  if raw = [] then [] else (splitCommas raw).map fun token => (trim token).map toLower

def facilityCode (token : Bytes) : Fallible ℕ :=
  match facilityFromName token with
  | some code => .ok code
  | none => .error (ascii "Unknown facility name: " ++ quoted token)

def appendUnique (list : List ℕ) (code : ℕ) : List ℕ := if code ∈ list then list else list ++ [code]

/-- The loop of `parseFacilities` over the tokens left. -/
def facilitiesFrom (result : List ℕ) : List Bytes → Fallible (List ℕ)
  | [] => .ok result
  | token :: rest =>
    if token = ascii "*" then .ok []
    else do
      let code ← facilityCode token
      facilitiesFrom (appendUnique result code) rest

def parseFacilities (raw : Bytes) : Fallible (List ℕ) := facilitiesFrom [] (facilityTokens raw)

def excludedFrom (label : Bytes) (result : List ℕ) : List Bytes → Fallible (List ℕ)
  | [] => .ok result
  | token :: rest =>
    if token = ascii "*" then
      .error (label ++ ascii " cannot be '*': that would exclude every message. " ++
        ascii "Remove the section instead, or name the facilities to leave out")
    else do
      let code ← facilityCode token
      excludedFrom label (appendUnique result code) rest

def parseExcludedFacilities (raw label : Bytes) : Fallible (List ℕ) :=
  excludedFrom label [] (facilityTokens raw)

/-! ## Sizes -/

def sizeUnit (unit : Bytes) : Option ℕ :=
  if unit = ascii "b" ∨ unit = [] then some 1
  else if unit = ascii "kb" then some 1024
  else if unit = ascii "mb" then some (1024 * 1024)
  else if unit = ascii "gb" then some (1024 * 1024 * 1024)
  else none

def parseSize (raw : Bytes) (allowZero : Bool) : Fallible ℕ :=
  if raw = [] then .error (ascii "Empty size value")
  else
    let digits := raw.takeWhile isDigit
    if digits = [] then .error (ascii "Invalid size (no numeric part): " ++ quoted raw)
    else
      let num := decimal digits
      if 2 ^ 64 ≤ num then .error (ascii "Size out of range: " ++ quoted raw)
      else if num = 0 ∧ allowZero = false then .error (ascii "Size must be > 0: " ++ quoted raw)
      else
        let unit := (trim (raw.drop digits.length)).map toLower
        match sizeUnit unit with
        | none => .error (ascii "Unknown size unit " ++ quoted unit ++ ascii " in: " ++ quoted raw)
        | some mult =>
          if (2 ^ 64 - 1) / mult < num then .error (ascii "Size too large: " ++ quoted raw ++
            ascii " overflows 64 bits")
          else .ok (num * mult)

/-! ## Sections -/

/-- `std::filesystem::path(value).is_absolute()` on POSIX. -/
def isAbsolute (value : Bytes) : Bool := value.head? == some 0x2F

def requireAbsolutePath (label value : Bytes) : Fallible Unit :=
  if isAbsolute value then .ok ()
  else
    .error (label ++ ascii " = " ++ quoted value ++
      ascii " must be an absolute path. Environment variables are not expanded, " ++
      ascii "so a value such as '%ProgramData%\\minilog\\log' does not become one.")

/-- `known` is a `std::set`: its elements in order. -/
def requireKnownKeys (sec : Bytes) (node : Node) (known : List Bytes) : Fallible Unit :=
  match node.keys.find? fun p => !known.contains p.1 with
  | none => .ok ()
  | some (unknown, _) =>
    .error (ascii "Unknown key " ++ quoted unknown ++ ascii " in [" ++ sec ++ ascii "]. Valid keys are: " ++
      (ascii ", ").intercalate known)

def outputKeys : List Bytes :=
  ["exclude_facility", "facility", "include_malformed", "jsonl_file", "max_files", "max_size",
    "text_file"].map ascii

/-- `e.what()` put behind a prefix and thrown again. -/
def prefixError {α : Type} (label : Bytes) : Fallible α → Fallible α
  | .ok a => .ok a
  | .error e => .error (label ++ e)

def parseOutput (name : Bytes) (sec : Node) : Fallible OutputConfig := do
  requireKnownKeys (ascii "output." ++ name) sec outputKeys
  let label := ascii "[output." ++ name ++ ascii "] "
  let textFile := (sec.get (ascii "text_file")).getD []
  let jsonlFile := (sec.get (ascii "jsonl_file")).getD []
  refuse (textFile = [] ∧ jsonlFile = []) (label ++ ascii "must specify text_file, jsonl_file, or both")
  if textFile = [] then pure () else requireAbsolutePath (label ++ ascii "text_file") textFile
  if jsonlFile = [] then pure () else requireAbsolutePath (label ++ ascii "jsonl_file") jsonlFile
  refuse (textFile = jsonlFile)
    (label ++ ascii "text_file and jsonl_file must name different files, but both are " ++ quoted textFile)
  let sizeStr := (sec.get (ascii "max_size")).getD []
  let maxSize ← if sizeStr = [] then pure 0 else prefixError label (parseSize sizeStr true)
  let maxFiles ← requireInt (sec.get (ascii "max_files")) (label ++ ascii "max_files") 10
  refuse (maxFiles < 0 ∨ (kMaxFilesLimit : ℤ) < maxFiles)
    (label ++ ascii "max_files must be between 0 and " ++ numeral kMaxFilesLimit ++
      ascii " (0 = keep all, up to that)")
  let facilities ← parseFacilities ((sec.get (ascii "facility")).getD (ascii "*"))
  let excluded ← parseExcludedFacilities ((sec.get (ascii "exclude_facility")).getD [])
    (label ++ ascii "exclude_facility")
  let includeMalformed ← requireBool (sec.get (ascii "include_malformed"))
      (label ++ ascii "include_malformed") true
  return ⟨name, textFile, jsonlFile, maxSize, maxFiles.toNat, facilities, excluded, includeMalformed⟩

/-- The closure `claim`: `owners` maps a path to the field that named it first. -/
def claim (owners : List (Bytes × Bytes)) (file owner : Bytes) : Fallible (List (Bytes × Bytes)) :=
  if file = [] then .ok owners
  else
    match owners.lookup file with
    | some first =>
      .error (owner ++ ascii " = " ++ quoted file ++ ascii " is already used by " ++ first ++
        ascii "; each log file must belong to exactly one output section")
    | none => .ok ((file, owner) :: owners)

def claimAll (owners : List (Bytes × Bytes)) : List OutputConfig → Fallible Unit
  | [] => .ok ()
  | out :: rest => do
    let owners ← claim owners out.textFile (ascii "[output." ++ out.name ++ ascii "] text_file")
    let owners ← claim owners out.jsonlFile (ascii "[output." ++ out.name ++ ascii "] jsonl_file")
    claimAll owners rest

def requireDistinctFiles (outputs : List OutputConfig) : Fallible Unit := claimAll [] outputs

/-! ## The file -/

def outputPrefix : Bytes := ascii "output."

/-- The loop over the top-level nodes; `seen` are the names of the sections so far. -/
def parseOutputs (seen : List Bytes) : Tree → Fallible (List OutputConfig)
  | [] => .ok []
  | (key, sec) :: rest =>
    if outputPrefix.length < key.length ∧ key.take outputPrefix.length = outputPrefix then do
      let name := key.drop outputPrefix.length
      refuse (name ∈ seen) (ascii "Duplicate output section name: " ++ quoted name)
      let output ← parseOutput name sec
      let outputs ← parseOutputs (name :: seen) rest
      return output :: outputs
    else parseOutputs seen rest

def requireNode (tree : Tree) (sec : Bytes) (known : List Bytes) : Fallible Unit :=
  match tree.lookup sec with
  | some node => requireKnownKeys sec node known
  | none => .ok ()

def parseServer (tree : Tree) : Fallible (Bytes × ℕ × ℕ × ℕ) := do
  requireNode tree (ascii "server") (["host", "max_queue_bytes", "udp_port", "workers"].map ascii)
  let host := (tree.get (ascii "server") (ascii "host")).getD (ascii "0.0.0.0")
  requireAddress makeAddress (ascii "[server] host") host
  let port ← requireInt (tree.get (ascii "server") (ascii "udp_port")) (ascii "[server] udp_port") 514
  refuse (port < 0 ∨ 65535 < port) (ascii "Invalid udp_port: " ++ ascii (toString port))
  let workers ← requireInt (tree.get (ascii "server") (ascii "workers")) (ascii "[server] workers") 4
  refuse (workers ≤ 0 ∨ 256 < workers)
    (ascii "workers must be between 1 and 256 (got " ++ ascii (toString workers) ++ ascii ")")
  let queue := (tree.get (ascii "server") (ascii "max_queue_bytes")).getD []
  let maxQueueBytes ← if queue = [] then pure (16 * 1024 * 1024)
    else prefixError (ascii "[server] max_queue_bytes: ") (parseSize queue false)
  return (host, port.toNat, workers.toNat, maxQueueBytes)

def parseForwarding (tree : Tree) : Fallible ForwardingConfig :=
  match tree.lookup (ascii "forwarding") with
  | none => .ok {}
  | some f => do
    requireKnownKeys (ascii "forwarding") f
      (["enabled", "exclude_facility", "facility", "host", "max_message_size", "port"].map ascii)
    let enabled ← requireBool (f.get (ascii "enabled")) (ascii "[forwarding] enabled") false
    let host := (f.get (ascii "host")).getD []
    let maxMessageSize ← requireUint32 (f.get (ascii "max_message_size"))
        (ascii "[forwarding] max_message_size") 2048
    let facilities ← parseFacilities ((f.get (ascii "facility")).getD (ascii "*"))
    let excluded ← parseExcludedFacilities ((f.get (ascii "exclude_facility")).getD [])
        (ascii "[forwarding] exclude_facility")
    let port ← requireInt (f.get (ascii "port")) (ascii "[forwarding] port") 514
    refuse (port ≤ 0 ∨ 65535 < port) (ascii "Invalid forwarding port: " ++ ascii (toString port))
    return ⟨enabled, host, port.toNat, maxMessageSize, facilities, excluded⟩

def requireForwardingHost (f : ForwardingConfig) : Fallible Unit :=
  if f.enabled = false then .ok ()
  else do
    refuse (f.host = []) (ascii "[forwarding] enabled = true requires a host address")
    requireDestinationHost makeAddress (ascii "[forwarding] host") f.host

/-- `loadConfig`, from the tree `read_ini` returned on. -/
def loadConfig (tree : Tree) : Fallible Config := do
  let server ← parseServer makeAddress tree
  let outputs ← parseOutputs [] tree
  refuse (outputs = []) (ascii "Config must define at least one [output.*] section")
  requireDistinctFiles outputs
  requireNode tree (ascii "web_viewer") (["host", "port"].map ascii)
  let forwarding ← parseForwarding tree
  requireForwardingHost makeAddress forwarding
  return ⟨server.1, server.2.1, server.2.2.1, server.2.2.2, outputs, forwarding⟩

end Minilog.Server
