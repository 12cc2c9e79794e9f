import Minilog.Lib.Form
import Minilog.Server.Config

/-! Facility lists (`facilityTokens`, `parseFacilities` in `config/config.cpp`, `facilityMatches` in
`config/config.hpp`).

`facilitiesFrom` ends at the first wildcard and at the first unknown name, whichever comes first. A list with
only one of the two kinds means the same in any order (`facilitiesFrom_known`, `facilitiesFrom_wildcard`,
`facilitiesFrom_unknown`); one with both does not. -/
namespace Minilog.Server
open Lib
set_option autoImplicit false

def comma : UInt8 := 0x2C

/-- A message without a facility passes the wildcard only. -/
def facilityMatches (accepted excluded : List ℕ) : Option ℕ → Bool
  | none => accepted.isEmpty
  | some facility => if accepted ≠ [] ∧ facility ∉ accepted then false else decide (facility ∉ excluded)

/-- Both are refused, or both list the same codes and route every message alike. -/
def SameOutcome : Fallible (List ℕ) → Fallible (List ℕ) → Prop
  | .ok a, .ok b =>
    (∀ code, code ∈ a ↔ code ∈ b) ∧ ∀ excluded facility, facilityMatches a excluded facility =
      facilityMatches b excluded facility
  | .error _, .error _ => True
  | _, _ => False

theorem SameOutcome.of_mem (a b : List ℕ) (h : ∀ code, code ∈ a ↔ code ∈ b) : SameOutcome (.ok a) (.ok b) := by
  have hnil : a = [] ↔ b = [] := by
    rw [List.eq_nil_iff_forall_not_mem, List.eq_nil_iff_forall_not_mem]
    exact forall_congr' fun code => not_congr (h code)
  refine ⟨h, ?_⟩
  intro excluded facility
  cases facility with
  | none => rw [facilityMatches, facilityMatches, Bool.eq_iff_iff, List.isEmpty_iff, List.isEmpty_iff, hnil]
  | some facility =>
    rw [facilityMatches, facilityMatches]
    simp only [ne_eq, hnil, h facility]

/-! ## The tokens of a list -/

def facilityToken (piece : Bytes) : Bytes := (trim piece).map toLower

theorem splitCommas_eq (s : Bytes) : splitCommas s = splitOn comma s := by
  induction s with
  | nil => rfl
  | cons c s ih =>
    rw [splitCommas, splitOn, ih]
    rfl

theorem joinWith_eq_nil (sep : UInt8) (ps : List Bytes) : joinWith sep ps = [] ↔ ps = [] ∨ ps = [[]] := by
  fun_cases joinWith sep ps with
  | case1 => simp
  | case2 p => simp
  | case3 p q ps => simp

theorem facilityTokens_joinWith (pieces : List Bytes) (hne : pieces ≠ []) (hne' : pieces ≠ [[]])
    (hplain : ∀ p ∈ pieces, comma ∉ p) :
    facilityTokens (joinWith comma pieces) = pieces.map facilityToken := by
  rw [facilityTokens, if_neg (fun h => ((joinWith_eq_nil comma pieces).mp h).elim hne hne'), splitCommas_eq,
    splitOn_joinWith comma pieces hne hplain]
  rfl

/-- The tokens of a list come in its order. -/
theorem facilityTokens_perm (pieces pieces' : List Bytes) (hperm : pieces.Perm pieces')
    (hplain : ∀ p ∈ pieces, comma ∉ p) :
    (facilityTokens (joinWith comma pieces)).Perm (facilityTokens (joinWith comma pieces')) := by
  by_cases hne : pieces = []
  · rw [hne] at hperm
    rw [hne, List.nil_perm.mp hperm]
  · by_cases hne' : pieces = [[]]
    · rw [hne'] at hperm
      rw [hne', List.singleton_perm.mp hperm]
    · have hother : pieces' ≠ [] ∧ pieces' ≠ [[]] := by
        refine ⟨fun h => hne ?_, fun h => hne' ?_⟩
        · rw [h] at hperm
          exact List.perm_nil.mp hperm
        · rw [h] at hperm
          exact List.perm_singleton.mp hperm
      rw [facilityTokens_joinWith pieces hne hne' hplain,
        facilityTokens_joinWith pieces' hother.1 hother.2 fun p hp => hplain p (hperm.mem_iff.mpr hp)]
      exact hperm.map facilityToken

/-! ## The loop -/

/-- A token that `parseFacilities` cannot accept. -/
def Unknown (token : Bytes) : Prop := token ≠ ascii "*" ∧ facilityFromName token = none

instance (token : Bytes) : Decidable (Unknown token) := inferInstanceAs (Decidable (_ ∧ _))

theorem mem_appendUnique (list : List ℕ) (code c : ℕ) : c ∈ appendUnique list code ↔ c ∈ list ∨ c = code := by
  unfold appendUnique
  split
  · next h =>
    refine ⟨.inl, ?_⟩
    rintro (hc | rfl)
    · exact hc
    · exact h
  · rw [List.mem_append, List.mem_singleton]

theorem facilitiesFrom_name (result : List ℕ) (token : Bytes) (rest : List Bytes) (code : ℕ)
    (hstar : token ≠ ascii "*") (hcode : facilityFromName token = some code) :
    facilitiesFrom result (token :: rest) = facilitiesFrom (appendUnique result code) rest := by
  rw [facilitiesFrom, if_neg hstar, facilityCode, hcode]
  rfl

theorem facilitiesFrom_refuses (result : List ℕ) (token : Bytes) (rest : List Bytes) (h : Unknown token) :
    ∃ e, facilitiesFrom result (token :: rest) = .error e := by
  rw [facilitiesFrom, if_neg h.1, facilityCode, h.2]
  exact ⟨_, rfl⟩

/-- Names only: their codes. -/
theorem facilitiesFrom_known (tokens : List Bytes) (result : List ℕ) (hstar : ascii "*" ∉ tokens)
    (hknown : ∀ t ∈ tokens, ¬ Unknown t) :
    ∃ codes, facilitiesFrom result tokens = .ok codes ∧
      ∀ c, c ∈ codes ↔ c ∈ result ∨ ∃ t ∈ tokens, facilityFromName t = some c := by
  induction tokens generalizing result with
  | nil => exact ⟨result, rfl, fun c => by simp⟩
  | cons token rest ih =>
    rw [List.mem_cons, not_or] at hstar
    have hname := hknown token List.mem_cons_self
    obtain ⟨code, hcode⟩ : ∃ code, facilityFromName token = some code :=
      Option.ne_none_iff_exists'.mp fun hnone => hname ⟨Ne.symm hstar.1, hnone⟩
    obtain ⟨codes, hcodes, hmem⟩ := ih (appendUnique result code) hstar.2 fun t ht =>
      hknown t (List.mem_cons_of_mem _ ht)
    refine ⟨codes, ?_, ?_⟩
    · rw [facilitiesFrom_name result token rest code (Ne.symm hstar.1) hcode, hcodes]
    · intro c
      rw [hmem, mem_appendUnique, List.exists_mem_cons_iff, hcode, Option.some_inj, or_assoc, eq_comm]

/-- A wildcard among names: the empty list. -/
theorem facilitiesFrom_wildcard (tokens : List Bytes) (result : List ℕ) (hstar : ascii "*" ∈ tokens)
    (hknown : ∀ t ∈ tokens, ¬ Unknown t) :
    facilitiesFrom result tokens = .ok [] := by
  induction tokens generalizing result with
  | nil => cases hstar
  | cons token rest ih =>
    by_cases htoken : token = ascii "*"
    · rw [facilitiesFrom, if_pos htoken]
    · have hname := hknown token List.mem_cons_self
      obtain ⟨code, hcode⟩ : ∃ code, facilityFromName token = some code :=
        Option.ne_none_iff_exists'.mp fun hnone => hname ⟨htoken, hnone⟩
      rw [facilitiesFrom_name result token rest code htoken hcode]
      exact ih _ ((List.mem_cons.mp hstar).resolve_left (Ne.symm htoken)) fun t ht =>
        hknown t (List.mem_cons_of_mem _ ht)

/-- An unknown name and no wildcard: refused. -/
theorem facilitiesFrom_unknown (tokens : List Bytes) (result : List ℕ) (hstar : ascii "*" ∉ tokens)
    (hunknown : ∃ t ∈ tokens, Unknown t) :
    ∃ e, facilitiesFrom result tokens = .error e := by
  induction tokens generalizing result with
  | nil =>
    obtain ⟨t, ht, -⟩ := hunknown
    cases ht
  | cons token rest ih =>
    rw [List.mem_cons, not_or] at hstar
    by_cases htoken : Unknown token
    · exact facilitiesFrom_refuses result token rest htoken
    · obtain ⟨code, hcode⟩ : ∃ code, facilityFromName token = some code :=
        Option.ne_none_iff_exists'.mp fun hnone => htoken ⟨Ne.symm hstar.1, hnone⟩
      rw [facilitiesFrom_name result token rest code (Ne.symm hstar.1) hcode]
      refine ih _ hstar.2 ?_
      obtain ⟨t, ht, hunk⟩ := hunknown
      rcases List.mem_cons.mp ht with rfl | ht
      · exact absurd hunk htoken
      · exact ⟨t, ht, hunk⟩

/-- Without both a wildcard and an unknown name, only what is in the list counts. -/
theorem facilitiesFrom_perm (tokens tokens' : List Bytes) (hperm : tokens.Perm tokens')
    (hone : ¬ (ascii "*" ∈ tokens ∧ ∃ t ∈ tokens, Unknown t)) :
    SameOutcome (facilitiesFrom [] tokens) (facilitiesFrom [] tokens') := by
  by_cases hunknown : ∃ t ∈ tokens, Unknown t
  · have hstar : ascii "*" ∉ tokens := fun h => hone ⟨h, hunknown⟩
    obtain ⟨t, ht, hunk⟩ := hunknown
    obtain ⟨e, he⟩ := facilitiesFrom_unknown tokens [] hstar ⟨t, ht, hunk⟩
    obtain ⟨e', he'⟩ := facilitiesFrom_unknown tokens' [] (fun h => hstar (hperm.mem_iff.mpr h))
      ⟨t, hperm.mem_iff.mp ht, hunk⟩
    rw [he, he']
    exact trivial
  · have hknown : ∀ t ∈ tokens, ¬ Unknown t := fun t ht hunk => hunknown ⟨t, ht, hunk⟩
    have hknown' : ∀ t ∈ tokens', ¬ Unknown t := fun t ht => hknown t (hperm.mem_iff.mpr ht)
    by_cases hstar : ascii "*" ∈ tokens
    · rw [facilitiesFrom_wildcard tokens [] hstar hknown,
        facilitiesFrom_wildcard tokens' [] (hperm.mem_iff.mp hstar) hknown']
      exact SameOutcome.of_mem [] [] fun code => Iff.rfl
    · obtain ⟨codes, hcodes, hmem⟩ := facilitiesFrom_known tokens [] hstar hknown
      obtain ⟨codes', hcodes', hmem'⟩ :=
        facilitiesFrom_known tokens' [] (fun h => hstar (hperm.mem_iff.mpr h)) hknown'
      rw [hcodes, hcodes']
      apply SameOutcome.of_mem
      intro code
      rw [hmem, hmem']
      simp only [hperm.mem_iff]

/-! ## Any order -/

/-- Which token stands first decides about a list with both. -/
theorem parseFacilities_first (piece : Bytes) (pieces : List Bytes) (hother : piece ≠ [] ∨ pieces ≠ [])
    (hplain : ∀ p ∈ piece :: pieces, comma ∉ p) :
    parseFacilities (joinWith comma (piece :: pieces)) =
      facilitiesFrom [] (facilityToken piece :: pieces.map facilityToken) := by
  rw [parseFacilities, facilityTokens_joinWith _ (List.cons_ne_nil _ _) ?_ hplain, List.map_cons]
  intro h
  obtain ⟨rfl, rfl⟩ := List.cons.inj h
  exact hother.elim (fun h => h rfl) (fun h => h rfl)

/-- A facility list means the same in any order, and an unknown name is refused wherever it stands, exactly
when the list does not have both a wildcard and an unknown name. -/
theorem parseFacilities_perm_iff (pieces : List Bytes) (hplain : ∀ p ∈ pieces, comma ∉ p) :
    (∀ pieces', pieces.Perm pieces' →
      SameOutcome (parseFacilities (joinWith comma pieces)) (parseFacilities (joinWith comma pieces')) ∧
      ((∃ t ∈ facilityTokens (joinWith comma pieces'), Unknown t) →
        ∃ e, parseFacilities (joinWith comma pieces') = .error e)) ↔
    ¬ (ascii "*" ∈ facilityTokens (joinWith comma pieces) ∧
      ∃ t ∈ facilityTokens (joinWith comma pieces), Unknown t) := by
  constructor
  · rintro hall ⟨hstar, hunknown⟩
    obtain ⟨t, ht, hunk⟩ := hunknown
    have hne : pieces ≠ [] := by
      rintro rfl
      cases ht
    have hne' : pieces ≠ [[]] := by
      rintro rfl
      cases ht
    rw [facilityTokens_joinWith pieces hne hne' hplain] at hstar
    obtain ⟨p, hp, hpstar⟩ := List.mem_map.mp hstar
    -- with the wildcard in front, the list is accepted although it has an unknown name
    have hperm := List.perm_cons_erase hp
    have hplain' : ∀ q ∈ p :: pieces.erase p, comma ∉ q := fun q hq => hplain q (hperm.mem_iff.mpr hq)
    have hpne : p ≠ [] := by
      rintro rfl
      exact absurd hpstar (by decide)
    have haccepted : parseFacilities (joinWith comma (p :: pieces.erase p)) = .ok [] := by
      rw [parseFacilities_first p _ (.inl hpne) hplain', hpstar, facilitiesFrom, if_pos rfl]
    obtain ⟨e, he⟩ := (hall _ hperm).2 ⟨t, (facilityTokens_perm pieces _ hperm hplain).mem_iff.mp ht, hunk⟩
    rw [haccepted] at he
    cases he
  · intro hone pieces' hperm
    have htokens := facilityTokens_perm pieces pieces' hperm hplain
    refine ⟨facilitiesFrom_perm _ _ htokens hone, ?_⟩
    rintro ⟨t, ht, hunk⟩
    refine facilitiesFrom_unknown _ [] (fun hstar => hone ⟨htokens.mem_iff.mpr hstar, ?_⟩) ⟨t, ht, hunk⟩
    exact ⟨t, htokens.mem_iff.mpr ht, hunk⟩

theorem parseFacilities_perm_iff_names :
    SameOutcome (parseFacilities (ascii "auth, KERN,security"))
    (parseFacilities (ascii "security,auth, KERN")) :=
  (((parseFacilities_perm_iff [ascii "auth", ascii " KERN", ascii "security"] (by decide)).mpr (by decide))
    [ascii "security", ascii "auth", ascii " KERN"] (by decide)).1

/-- A misspelt name is refused in front of the wildcard and passed over behind it. -/
theorem misspelt_behind_wildcard :
    ¬ ∀ pieces pieces' : List Bytes, pieces.Perm pieces' →
      SameOutcome (parseFacilities (joinWith comma pieces)) (parseFacilities (joinWith comma pieces')) := by
  intro h
  have hsame := h [ascii "*", ascii "kernl"] [ascii "kernl", ascii "*"] (List.Perm.swap _ _ _)
  exact hsame

end Minilog.Server
