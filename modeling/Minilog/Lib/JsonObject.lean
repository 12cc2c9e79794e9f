import Minilog.Lib.PythonJson
import Minilog.Lib.Utf8

/-! A compact JSON object of strings, and its way through `json.loads`.

A character is written as itself, or as one of the escapes of RFC 8259 where it has to be. What is written is
read back (`loads_writeObject`), and no code point but those of the strings can come out of it. -/
namespace Minilog.Lib.Python
set_option autoImplicit false

/-! ## Writing -/

def writeChar (c : Char) : List Char :=
  if c = '"' then ['\\', '"']
  else if c = '\\' then ['\\', '\\']
  else if c = Char.ofNat 0x08 then ['\\', 'b']
  else if c = Char.ofNat 0x0C then ['\\', 'f']
  else if c = '\n' then ['\\', 'n']
  else if c = '\r' then ['\\', 'r']
  else if c = '\t' then ['\\', 't']
  else if c.toNat < 0x20 then escapeUnit c.toNat
  else [c]

def writeString (cs : List Char) : List Char := '"' :: (cs.flatMap writeChar ++ ['"'])

/-- A string, or `null`. -/
def writeValue : Option (List Char) → List Char
  | none => "null".toList
  | some cs => writeString cs

abbrev Member := List Char × Option (List Char)

def writeMember (m : Member) : List Char := writeString m.1 ++ ':' :: writeValue m.2

def writeMembers : List Member → List Char
  | [] => []
  | [m] => writeMember m
  | m :: n :: ms => writeMember m ++ ',' :: writeMembers (n :: ms)

def writeObject (ms : List Member) : List Char := '\x7b' :: (writeMembers ms ++ ['\x7d'])

/-! ## Reading -/

def readValue : Option (List Char) → Value
  | none => .none
  | some cs => .str (text cs)

def readMember (m : Member) : Text × Value := (text m.1, readValue m.2)

theorem text_injective : Function.Injective text := List.map_injective_iff.mpr fun c d h => by injection h

theorem scanString_escape (fuel : ℕ) (e c : Char) (tail : List Char) (he : e ≠ 'u') (hc : unescape e = some c) :
    scanString (fuel + 1) ('\\' :: e :: tail) = (scanString fuel tail).map fun r =>
    (CodePoint.scalar c :: r.1, r.2) := by
  rw [scanString, if_neg (by decide), if_pos rfl, if_neg (by simpa using he), List.head?_cons,
    Option.bind_some, hc, Option.bind_some]
  rfl

/-- One character comes back from what it is written as. -/
theorem scanString_writeChar (fuel : ℕ) (c : Char) (tail : List Char) :
    scanString (fuel + 1) (writeChar c ++ tail) = (scanString fuel tail).map fun r =>
    (CodePoint.scalar c :: r.1, r.2) := by
  unfold writeChar
  split_ifs with hquote hslash hb hf hn hr ht hcontrol
  · exact scanString_escape fuel _ _ tail (by decide) (by rw [hquote]; rfl)
  · exact scanString_escape fuel _ _ tail (by decide) (by rw [hslash]; rfl)
  · exact scanString_escape fuel _ _ tail (by decide) (by rw [hb]; rfl)
  · exact scanString_escape fuel _ _ tail (by decide) (by rw [hf]; rfl)
  · exact scanString_escape fuel _ _ tail (by decide) (by rw [hn]; rfl)
  · exact scanString_escape fuel _ _ tail (by decide) (by rw [hr]; rfl)
  · exact scanString_escape fuel _ _ tail (by decide) (by rw [ht]; rfl)
  · have hunicode : scanUnicode (unitDigits c.toNat ++ tail) = some (.scalar c, tail) := by
      rw [scanUnicode, decodeUnit_unitDigits _ _ (by omega), Option.bind_some, if_neg (by omega),
        ← CodePoint.ord_scalar c, chr_ord]
    rw [escapeUnit, List.cons_append, List.cons_append, scanString, if_neg (by decide), if_pos rfl,
      if_pos List.head?_cons]
    change (scanUnicode (unitDigits c.toNat ++ tail)).bind _ = _
    rw [hunicode, Option.bind_some]
  · rw [List.singleton_append, scanString, if_neg hquote, if_neg hslash, if_neg (by omega)]

/-- No control character is written. -/
theorem writeChar_printable (c x : Char) (h : x ∈ writeChar c) : 0x20 ≤ x.toNat := by
  have hdigit : ∀ d : Fin 16, 0x20 ≤ (Nat.digitChar d).toNat := by decide
  have hfixed : ∀ (e : Char), 0x20 ≤ e.toNat → x ∈ ['\\', e] → 0x20 ≤ x.toNat := by
    intro e he hx
    rcases List.mem_cons.mp hx with rfl | hx
    · decide
    · rw [List.mem_singleton.mp hx]
      exact he
  unfold writeChar at h
  split_ifs at h with hquote hslash hb hf hn hr ht hcontrol
  · exact hfixed _ (by decide) h
  · exact hfixed _ (by decide) h
  · exact hfixed _ (by decide) h
  · exact hfixed _ (by decide) h
  · exact hfixed _ (by decide) h
  · exact hfixed _ (by decide) h
  · exact hfixed _ (by decide) h
  · rcases List.mem_cons.mp h with rfl | h
    · decide
    rcases List.mem_cons.mp h with rfl | h
    · decide
    obtain ⟨d, hd, rfl⟩ := List.mem_map.mp h
    have hlt : d < 16 := by
      simp only [List.mem_cons, List.not_mem_nil, or_false] at hd
      omega
    exact hdigit ⟨d, hlt⟩
  · rw [List.mem_singleton.mp h]
    exact Nat.not_lt.mp hcontrol

theorem writeString_printable (cs : List Char) (x : Char) (h : x ∈ writeString cs) : 0x20 ≤ x.toNat := by
  rcases List.mem_cons.mp h with rfl | h
  · decide
  rcases List.mem_append.mp h with h | h
  · obtain ⟨c, -, hx⟩ := List.mem_flatMap.mp h
    exact writeChar_printable c x hx
  · rw [List.mem_singleton.mp h]
    decide

theorem writeMember_printable (m : Member) (x : Char) (h : x ∈ writeMember m) : 0x20 ≤ x.toNat := by
  have hnull : "null".toList.all (fun c => decide (0x20 ≤ c.toNat)) = true := rfl
  rcases List.mem_append.mp h with h | h
  · exact writeString_printable m.1 x h
  rcases List.mem_cons.mp h with rfl | h
  · decide
  cases hv : m.2 with
  | none =>
    rw [hv] at h
    exact of_decide_eq_true (List.all_eq_true.mp hnull x h)
  | some cs =>
    rw [hv] at h
    exact writeString_printable cs x h

theorem writeObject_printable (ms : List Member) (x : Char) (h : x ∈ writeObject ms) : 0x20 ≤ x.toNat := by
  have hmembers : ∀ ms, x ∈ writeMembers ms → 0x20 ≤ x.toNat := by
    intro ms hx
    fun_induction writeMembers ms with
    | case1 => exact absurd hx List.not_mem_nil
    | case2 m => exact writeMember_printable m x hx
    | case3 m n ms ih =>
      rcases List.mem_append.mp hx with hx | hx
      · exact writeMember_printable m x hx
      rcases List.mem_cons.mp hx with rfl | hx
      · decide
      · exact ih hx
  rcases List.mem_cons.mp h with rfl | h
  · decide
  rcases List.mem_append.mp h with h | h
  · exact hmembers ms h
  · rw [List.mem_singleton.mp h]
    decide

theorem scanString_written (fuel : ℕ) (cs rest : List Char) (hfuel : cs.length < fuel) :
    scanString fuel (cs.flatMap writeChar ++ '"' :: rest) = some (text cs, rest) := by
  induction cs generalizing fuel with
  | nil =>
    cases fuel with
    | zero => cases hfuel
    | succ fuel => rfl
  | cons c cs ih =>
    cases fuel with
    | zero => cases hfuel
    | succ fuel =>
      rw [List.flatMap_cons, List.append_assoc, scanString_writeChar,
        ih fuel (Nat.lt_of_succ_lt_succ hfuel), Option.map_some]
      rfl

theorem writeChar_pos (c : Char) : 1 ≤ (writeChar c).length := by
  unfold writeChar
  split_ifs
  all_goals exact Nat.succ_le_succ (Nat.zero_le _)

theorem length_le_written (cs : List Char) : cs.length ≤ (cs.flatMap writeChar).length := by
  induction cs with
  | nil => exact Nat.le_refl 0
  | cons c cs ih =>
    have hone := writeChar_pos c
    rw [List.flatMap_cons, List.length_append, List.length_cons]
    omega

/-- The string behind an opening quote, as `scan_once` and `JSONObject` read it. -/
theorem scanString_opened (cs rest : List Char) :
    scanString (writeString cs ++ rest).length ((writeString cs ++ rest).drop 1) = some (text cs, rest) := by
  have hlen := length_le_written cs
  have hdrop : (writeString cs ++ rest).drop 1 = cs.flatMap writeChar ++ '"' :: rest := by
    rw [writeString, List.cons_append, List.append_assoc]
    rfl
  rw [hdrop]
  refine scanString_written _ cs rest ?_
  rw [writeString, List.cons_append, List.length_cons, List.length_append, List.length_append]
  omega

section Object

variable (float : List Char → FloatValue)

theorem scanOnce_written (fuel : ℕ) (v : Option (List Char)) (rest : List Char) :
    scanOnce float (fuel + 1) (writeValue v ++ rest) = some (readValue v, rest) := by
  cases v with
  | none => rfl
  | some cs =>
    change scanOnce float (fuel + 1) (writeString cs ++ rest) = _
    rw [scanOnce, if_pos (show (writeString cs ++ rest).head? = some '"' from rfl), scanString_opened,
      Option.map_some]
    rfl

theorem skipBlank_value (v : Option (List Char)) (rest : List Char) :
    skipBlank (writeValue v ++ rest) = writeValue v ++ rest := by
  cases v with
  | none => rfl
  | some cs => rfl

theorem setItem_new (entries : List (Text × Value)) (key : Text) (v : Value) (h : key ∉ entries.map Prod.fst) :
    setItem entries key v = entries ++ [(key, v)] := by
  refine if_neg fun hany => h ?_
  obtain ⟨e, he, heq⟩ := List.any_eq_true.mp hany
  exact List.mem_map.mpr ⟨e, he, of_decide_eq_true heq⟩

/-- One member: its key, its value, and what to do next. -/
theorem scanMembers_member (fuel : ℕ) (m : Member) (rest : List Char) (entries : List (Text × Value)) (c : Char)
    (hc : isBlank c = false) (hkey : text m.1 ∉ entries.map Prod.fst) :
    scanMembers float (fuel + 2) (writeMember m ++ c :: rest) entries =
      if c = '\x7d' then some (.dict (entries ++ [readMember m]), rest)
      else if c = ',' then scanMembers float (fuel + 1) (skipBlank rest) (entries ++ [readMember m])
      else none := by
  have hsplit : writeMember m ++ c :: rest = writeString m.1 ++ ':' :: (writeValue m.2 ++ c :: rest) := by
    rw [writeMember, List.append_assoc, List.cons_append]
  have hcolon : skipBlank (':' :: (writeValue m.2 ++ c :: rest)) = ':' :: (writeValue m.2 ++ c :: rest) := rfl
  have hnext : skipBlank (c :: rest) = c :: rest :=
    List.dropWhile_cons_of_neg (by rw [hc]; exact Bool.false_ne_true)
  rw [hsplit, scanMembers, if_neg (fun h => h rfl), scanString_opened, Option.bind_some]
  dsimp only
  rw [hcolon, if_neg (fun h => h rfl)]
  change (scanOnce float (fuel + 1) (skipBlank (writeValue m.2 ++ c :: rest))).bind _ = _
  rw [skipBlank_value, scanOnce_written, Option.bind_some]
  dsimp only
  rw [hnext, setItem_new entries _ _ hkey]
  simp only [List.head?_cons, Option.some.injEq]
  rfl

theorem scanMembers_written (ms : List Member) (hne : ms ≠ []) (fuel : ℕ) (hfuel : ms.length < fuel)
    (rest : List Char) (entries : List (Text × Value))
    (hkeys : (entries.map Prod.fst ++ ms.map fun m => text m.1).Nodup) :
    scanMembers float fuel (writeMembers ms ++ '\x7d' :: rest) entries =
      some (.dict (entries ++ ms.map readMember), rest) := by
  induction ms generalizing fuel entries with
  | nil => exact absurd rfl hne
  | cons m ms ih =>
    obtain ⟨k, rfl⟩ : ∃ k, fuel = k + 2 := ⟨fuel - 2, by rw [List.length_cons] at hfuel; omega⟩
    have hkey : text m.1 ∉ entries.map Prod.fst := by
      intro hmem
      exact (List.nodup_append.mp hkeys).2.2 _ hmem _ List.mem_cons_self rfl
    cases ms with
    | nil =>
      rw [writeMembers, scanMembers_member float k m rest entries _ (by decide) hkey, if_pos rfl]
      rfl
    | cons n ms =>
      have hblank : skipBlank (writeMembers (n :: ms) ++ '\x7d' :: rest) = writeMembers (n :: ms) ++
          '\x7d' :: rest := by
        cases ms with
        | nil => rfl
        | cons o ms => rfl
      rw [writeMembers, List.append_assoc, List.cons_append,
        scanMembers_member float k m _ entries _ (by decide) hkey, if_neg (by decide), if_pos rfl, hblank,
        ih (List.cons_ne_nil _ _) (k + 1) (by rw [List.length_cons] at hfuel; omega)
        (entries ++ [readMember m]) ?_, List.append_assoc]
      · rfl
      · rw [List.map_append, List.append_assoc]
        exact hkeys

theorem length_le_members (ms : List Member) : ms.length ≤ (writeMembers ms).length := by
  induction ms with
  | nil => exact Nat.le_refl 0
  | cons m ms ih =>
    have hone : ∀ m : Member, 1 ≤ (writeMember m).length := fun m => by
      rw [writeMember, writeString, List.cons_append, List.length_cons]
      omega
    cases ms with
    | nil => exact hone m
    | cons n ms =>
      have hhead := hone m
      rw [writeMembers, List.length_append, List.length_cons, List.length_cons (a := ',')]
      omega

/-- What is written is read back: the members, in their order. -/
theorem loads_writeObject (ms : List Member) (hne : ms ≠ []) (hkeys : (ms.map Prod.fst).Nodup) :
    loads float (writeObject ms) = .ok (.dict (ms.map readMember)) := by
  have hlen := length_le_members ms
  obtain ⟨fuel, hfuel⟩ : ∃ fuel, 2 * (writeObject ms).length + 1 = fuel + 1 := ⟨_, rfl⟩
  have henough : ms.length < fuel := by
    rw [writeObject, List.length_cons, List.length_append] at hfuel
    omega
  have hquote : ∀ tail, ∃ more, writeMembers ms ++ tail = '"' :: more := by
    intro tail
    match ms, hne with
    | [m], _ => exact ⟨_, rfl⟩
    | m :: n :: ms, _ => exact ⟨_, rfl⟩
  obtain ⟨more, hmore⟩ := hquote ['\x7d']
  have hnodup : (([] : List (Text × Value)).map Prod.fst ++ ms.map fun m => text m.1).Nodup := by
    have hmapped := hkeys.map text_injective
    rw [List.map_map] at hmapped
    exact hmapped
  have hstart : scanOnce float (fuel + 1) (writeObject ms) = some (.dict (ms.map readMember), []) := by
    have hinner : skipBlank ((writeObject ms).drop 1) = writeMembers ms ++ ['\x7d'] := by
      change skipBlank (writeMembers ms ++ ['\x7d']) = _
      rw [hmore]
      rfl
    rw [scanOnce, if_neg (by rw [writeObject, List.head?_cons]; decide),
      if_pos (by rw [writeObject, List.head?_cons])]
    dsimp only
    rw [hinner, if_neg (by rw [hmore, List.head?_cons]; decide),
      scanMembers_written float ms hne fuel henough [] [] hnodup]
    rfl
  have hbom : (writeObject ms).head? ≠ some (Char.ofNat 0xFEFF) := by
    rw [writeObject, List.head?_cons]
    decide
  have hblank : skipBlank (writeObject ms) = writeObject ms := rfl
  rw [loads, if_neg hbom, hblank, hfuel, hstart]
  rfl

end Object

end Minilog.Lib.Python
