import Minilog.Lib.Checked
import Minilog.Lib.ConfigParser

/-! What the lines of a file are to the reader of `ConfigParser`, and which files it reads.

`items` takes each line for a header, for an option or for more of the value above it. The reader follows it
(`Took`), and it reads a file exactly when the items are in order (`read_iff`). -/
namespace Minilog.Lib.ConfigParser
set_option autoImplicit false

/-- A stripped line that is neither empty nor a comment. -/
def isContent (line : Bytes) : Bool := decide (line ≠ []) && !isComment line

/-- What a line with content is taken for. -/
inductive Item where
  | header (name : Bytes)
  | option (sec name value : Bytes)
  | more (sec name line : Bytes)
deriving DecidableEq

variable (lower : Bytes → Bytes)

def optionName (line : Bytes) : Bytes := lower (((optcre line).map Prod.fst).getD [])

def optionValue (line : Bytes) : Bytes := strip (((optcre line).map Prod.snd).getD [])

/-- The items of the lines below the option `opt` of the section `sec`. -/
def items (sec opt : Bytes) (level : ℕ) : List Bytes → List Item
  | [] => []
  | line :: rest =>
    if isContent (strip line) then
      if opt ≠ [] ∧ level < indent line then .more sec opt (strip line) :: items sec opt level rest
      else
        match sectcre (strip line) with
        | some name => .header name :: items name [] (indent line) rest
        | none =>
          .option sec (optionName lower (strip line)) (optionValue (strip line)) ::
            items sec (optionName lower (strip line)) (indent line) rest
    else items sec opt level rest

def Item.headerName : Item → Option Bytes
  | .header name => if name = defaultSection then none else some name
  | _ => none

def Item.optionName : Item → Option (Bytes × Bytes)
  | .option sec name _ => some (sec, name)
  | _ => none

def Item.isHeader : Item → Bool
  | .header _ => true
  | _ => false

def fileItems (text : Bytes) : List Item := items lower [] [] 0 (textLines text)

/-- A file that is read without an exception. -/
structure Regular (text : Bytes) : Prop where
  utf8 : isUtf8 text = true
  headed : ∀ item ∈ (fileItems lower text).head?, item.isHeader = true
  sections : ((fileItems lower text).filterMap Item.headerName).Nodup
  options : ((fileItems lower text).filterMap Item.optionName).Nodup
  keyed : ∀ p ∈ (fileItems lower text).filterMap Item.optionName, p.2 ≠ []

/-! ## Steps of the reader -/

section Steps

variable (r : Reader) (line : Bytes)

/-- An appended line changes nothing but the options. -/
theorem append_same (value : Bytes) :
    (r.append value).sections = r.sections ∧ (r.append value).cursect = r.cursect ∧
    (r.append value).optname = r.optname ∧
      (r.append value).indentLevel = r.indentLevel ∧ (r.append value).bogus = r.bogus := by
  unfold Reader.append
  split
  · exact ⟨rfl, rfl, rfl, rfl, rfl⟩
  · split
    · exact ⟨rfl, rfl, rfl, rfl, rfl⟩
    · exact ⟨rfl, rfl, rfl, rfl, rfl⟩

theorem append_options (value : Bytes) : (r.append value).options.map Prod.fst = r.options.map Prod.fst := by
  unfold Reader.append
  split
  · rfl
  · split
    · rfl
    · rw [List.map_map]
      refine List.map_congr_left fun p _ => ?_
      dsimp only [Function.comp]
      split
      · rfl
      · rfl

/-- An appended line goes to one option, and to its end. -/
theorem append_lookup (value : Bytes) (key : Bytes × Bytes) :
    (r.append value).options.lookup key =
      (r.options.lookup key).map fun lines =>
        if r.optname ≠ [] ∧ r.cursect = some key.1 ∧ r.optname = key.2 then lines ++ [value] else lines := by
  have hmap : ∀ (options : List ((Bytes × Bytes) × List Bytes)) (at' : Bytes × Bytes),
      (options.map fun p => if p.1 = at' then (p.1, p.2 ++ [value]) else p).lookup key =
        (options.lookup key).map fun lines => if key = at' then lines ++ [value] else lines := by
    intro options at'
    induction options with
    | nil => rfl
    | cons p options ih =>
      have hentry : (if p.1 = at' then (p.1, p.2 ++ [value]) else p) =
          (p.1, if p.1 = at' then p.2 ++ [value] else p.2) := by
        split
        · rfl
        · rfl
      rw [List.map_cons, hentry, List.lookup_cons, List.lookup_cons, ih]
      cases hp : key == p.1 with
      | true => rw [eq_of_beq hp, Option.map_some]
      | false => rfl
  unfold Reader.append
  cases hsec : r.cursect with
  | none => simp
  | some sec =>
    dsimp only
    by_cases hopt : r.optname = []
    · simp [hopt]
    · rw [if_neg hopt, hmap]
      congr 1
      funext lines
      have hkey : (key = (sec, r.optname)) = (r.optname ≠ [] ∧ some sec = some key.1 ∧ r.optname = key.2) := by
        obtain ⟨k, o⟩ := key
        simp only [Prod.mk.injEq, Option.some.injEq, eq_iff_iff]
        constructor
        · rintro ⟨rfl, rfl⟩
          exact ⟨hopt, rfl, rfl⟩
        · rintro ⟨-, rfl, rfl⟩
          exact ⟨rfl, rfl⟩
      simp only [hkey]

/-- A line is read on its own, not as more of the value above. -/
def Settled : Prop := ¬(r.optname ≠ [] ∧ r.indentLevel < indent line)

/-- What the reader does with a line that is no error, and what it takes the line for. -/
inductive Took : Option Item → Reader → Prop where
  | comment (h : isComment (strip line) = true) : Took none r
  | blank (h : strip line = []) : Took none (r.append [])
  | more (sec : Bytes) (hline : isContent (strip line) = true) (hsec : r.cursect = some sec)
    (hopt : r.optname ≠ [])
      (hlevel : r.indentLevel < indent line) :
      Took (some (.more sec r.optname (strip line))) (r.append (strip line))
  | header (name : Bytes) (hline : isContent (strip line) = true) (hown : Settled r line)
    (hname : sectcre (strip line) = some name)
      (hnew : name ∉ r.sections) :
      Took (some (.header name)) { r with
        sections := if name = defaultSection then r.sections else r.sections ++ [name]
        cursect := some name
        optname := []
        indentLevel := indent line }
  | option (sec name value : Bytes) (hline : isContent (strip line) = true) (hown : Settled r line)
      (hnone : sectcre (strip line) = none) (hsec : r.cursect = some sec)
      (hopt : optcre (strip line) = some (name, value)) (hname : name ≠ [])
      (hnew : (sec, lower name) ∉ r.options.map Prod.fst) :
      Took (some (.option sec (lower name) (strip value))) { r with
        options := r.options ++ [((sec, lower name), [strip value])]
        optname := lower name
        indentLevel := indent line }

theorem isContent_iff (l : Bytes) : isContent l = true ↔ l ≠ [] ∧ isComment l = false := by
  unfold isContent
  rw [Bool.and_eq_true, decide_eq_true_eq, Bool.not_eq_true']

theorem comment_or_blank (h : isContent (strip line) = false) :
    isComment (strip line) = true ∨ strip line = [] := by
  by_contra hnot
  rw [not_or, Bool.not_eq_true] at hnot
  rw [(isContent_iff _).mpr ⟨hnot.2, hnot.1⟩] at h
  cases h

/-- No option without a section. -/
def Idle : Prop := r.cursect = none → r.optname = []

variable {r line} {r' : Reader} {item : Option Item}

theorem Took.run (h : Took lower r line item r') : r.line lower line = .ok r' := by
  cases h with
  | comment h => exact if_pos h
  | blank h =>
    unfold Reader.line
    rw [h]
    rfl
  | more sec hline hsec hopt hlevel =>
    obtain ⟨hne, hcomment⟩ := (isContent_iff _).mp hline
    unfold Reader.line
    dsimp only
    rw [hcomment, if_neg Bool.false_ne_true, if_neg hne,
      if_pos ⟨by rw [hsec]; exact Option.some_ne_none sec, hopt, hlevel⟩]
  | header name hline hown hname hnew =>
    obtain ⟨hne, hcomment⟩ := (isContent_iff _).mp hline
    unfold Reader.line
    dsimp only
    rw [hcomment, if_neg Bool.false_ne_true, if_neg hne, if_neg fun h => hown h.2, hname]
    exact if_neg hnew
  | option sec name value hline hown hnone hsec hopt hname hnew =>
    obtain ⟨hne, hcomment⟩ := (isContent_iff _).mp hline
    unfold Reader.line
    dsimp only
    rw [hcomment, if_neg Bool.false_ne_true, if_neg hne, if_neg fun h => hown h.2, hnone, hsec]
    dsimp only
    unfold Reader.option
    rw [hopt]
    dsimp only
    rw [if_neg hnew, if_neg hname]

/-- A line that is no option stays noted. -/
theorem line_bogus (h : r.line lower line = .ok r') : r.bogus <+: r'.bogus := by
  unfold Reader.line at h
  dsimp only at h
  split at h
  · cases h
    exact List.prefix_refl _
  · split at h
    · cases h
      rw [(append_same r []).2.2.2.2]
    · split at h
      · cases h
        rw [(append_same r _).2.2.2.2]
      · split at h
        · unfold Reader.header at h
          split at h
          · cases h
          · cases h
            exact List.prefix_refl _
        · split at h
          · cases h
          · unfold Reader.option at h
            split at h
            · cases h
              exact List.prefix_append _ _
            · split at h
              · cases h
              · cases h
                dsimp only
                split
                · exact List.prefix_append _ _
                · exact List.prefix_refl _

theorem readLines_bogus (raw : List Bytes) (h : readLines lower r raw = .ok r') : r.bogus <+: r'.bogus := by
  induction raw generalizing r with
  | nil =>
    cases h
    exact List.prefix_refl _
  | cons line raw ih =>
    obtain ⟨r₁, hline, hrest⟩ := bind_eq_ok _ _ _ h
    exact (line_bogus lower hline).trans (ih hrest)

/-- Every line that is no error. -/
theorem took (hidle : Idle r) (h : r.line lower line = .ok r') (hclean : r'.bogus = []) :
    ∃ item, Took lower r line item r' := by
  cases hline : isContent (strip line) with
  | false =>
    rcases comment_or_blank line hline with hcomment | hblank
    · have hrun : r.line lower line = .ok r := Took.run lower (.comment hcomment)
      rw [h] at hrun
      cases hrun
      exact ⟨none, .comment hcomment⟩
    · have hrun : r.line lower line = .ok (r.append []) := Took.run lower (.blank hblank)
      rw [h] at hrun
      cases hrun
      exact ⟨none, .blank hblank⟩
  | true =>
    obtain ⟨hne, hcomment⟩ := (isContent_iff _).mp hline
    unfold Reader.line at h
    dsimp only at h
    rw [hcomment, if_neg Bool.false_ne_true, if_neg hne] at h
    split at h
    · next hmore =>
      cases h
      obtain ⟨sec, hsec⟩ := Option.ne_none_iff_exists'.mp hmore.1
      exact ⟨_, .more sec hline hsec hmore.2.1 hmore.2.2⟩
    · next hmore =>
      have hown : Settled r line := fun h => hmore ⟨fun hnone => h.1 (hidle hnone), h⟩
      cases hname : sectcre (strip line) with
      | some name =>
        rw [hname] at h
        dsimp only at h
        unfold Reader.header at h
        split at h
        · cases h
        · next hnew =>
          cases h
          exact ⟨_, .header name hline hown hname hnew⟩
      | none =>
        rw [hname] at h
        cases hsec : r.cursect with
        | none =>
          rw [hsec] at h
          cases h
        | some sec =>
          rw [hsec] at h
          dsimp only at h
          unfold Reader.option at h
          cases hopt : optcre (strip line) with
          | none =>
            rw [hopt] at h
            cases h
            exact absurd hclean (by simp)
          | some p =>
            rw [hopt] at h
            dsimp only at h
            split at h
            · cases h
            · next hnew =>
              cases h
              dsimp only at hclean
              split at hclean
              · exact absurd hclean (by simp)
              · next hname' =>
                have htook : Took lower r line _ _ := .option sec p.1 p.2 hline hown hname hsec hopt hname' hnew
                rw [hsec] at htook
                rw [if_neg hname']
                exact ⟨_, htook⟩

/-! ## Items -/

/-- The items from here on. -/
def itemsFrom (r : Reader) (raw : List Bytes) : List Item :=
  items lower (r.cursect.getD []) r.optname r.indentLevel raw

theorem Took.idle (h : Took lower r line item r') (hidle : Idle r) : Idle r' := by
  cases h with
  | comment => exact hidle
  | blank =>
    unfold Idle
    rw [(append_same r []).2.1, (append_same r []).2.2.1]
    exact hidle
  | more =>
    unfold Idle
    rw [(append_same r _).2.1, (append_same r _).2.2.1]
    exact hidle
  | header => exact fun _ => rfl
  | option sec name value _ _ _ hsec =>
    intro hnone
    rw [hsec] at hnone
    cases hnone

theorem itemsFrom_append (value : Bytes) (raw : List Bytes) :
    itemsFrom lower (r.append value) raw = itemsFrom lower r raw := by
  obtain ⟨-, hcursect, hoptname, hlevel, -⟩ := append_same r value
  rw [itemsFrom, hcursect, hoptname, hlevel]
  rfl

theorem not_content_comment (h : isComment (strip line) = true) : isContent (strip line) = false := by
  rw [isContent, h, Bool.not_true, Bool.and_false]

theorem not_content_blank (h : strip line = []) : isContent (strip line) = false := by
  rw [h]
  rfl

/-- The line stands for its item. -/
theorem Took.items (h : Took lower r line item r') (raw : List Bytes) :
    itemsFrom lower r (line :: raw) = item.toList ++ itemsFrom lower r' raw := by
  cases h with
  | comment h =>
    rw [itemsFrom, ConfigParser.items, not_content_comment h, if_neg Bool.false_ne_true]
    rfl
  | blank h =>
    rw [itemsFrom, ConfigParser.items, not_content_blank h, if_neg Bool.false_ne_true, itemsFrom_append]
    rfl
  | more sec hline hsec hopt hlevel =>
    rw [itemsFrom, ConfigParser.items, if_pos hline, if_pos ⟨hopt, hlevel⟩, itemsFrom_append, itemsFrom, hsec]
    rfl
  | header name hline hown hname hnew =>
    rw [itemsFrom, ConfigParser.items, if_pos hline, if_neg hown, hname]
    rfl
  | option sec name value hline hown hnone hsec hopt hname hnew =>
    rw [itemsFrom, ConfigParser.items, if_pos hline, if_neg hown, hnone, hsec, optionName, optionValue,
      hopt, itemsFrom]
    rfl

/-! ## Files in order -/

/-- What has to hold of the items to come. -/
structure InOrder (r : Reader) (is : List Item) : Prop where
  headed : r.cursect = none → ∀ item ∈ is.head?, item.isHeader = true
  sections : (r.sections ++ is.filterMap Item.headerName).Nodup
  options : (r.options.map Prod.fst ++ is.filterMap Item.optionName).Nodup
  keyed : ∀ p ∈ is.filterMap Item.optionName, p.2 ≠ []

/-- Names and options only move from the items into the reader. -/
theorem Took.moves (h : Took lower r line item r') (is : List Item) :
    r'.sections ++ is.filterMap Item.headerName = r.sections ++ (item.toList ++ is).filterMap Item.headerName ∧
      r'.options.map Prod.fst ++ is.filterMap Item.optionName =
        r.options.map Prod.fst ++ (item.toList ++ is).filterMap Item.optionName := by
  cases h with
  | comment h => exact ⟨rfl, rfl⟩
  | blank h => exact ⟨by rw [(append_same r []).1]; rfl, by rw [append_options]; rfl⟩
  | more sec hline hsec hopt hlevel => exact ⟨by rw [(append_same r _).1]; rfl, by rw [append_options]; rfl⟩
  | header name hline hown hname hnew =>
    refine ⟨?_, rfl⟩
    dsimp only [Option.toList_some, List.singleton_append]
    rw [List.filterMap_cons, Item.headerName]
    split
    · rfl
    · rw [List.append_assoc]
      rfl
  | option sec name value hline hown hnone hsec hopt hname hnew =>
    refine ⟨rfl, ?_⟩
    dsimp only
    rw [List.map_append, List.append_assoc]
    rfl

/-- Without a section, the next item is a header before and after. -/
theorem Took.headed (h : Took lower r line item r') (hnone : r'.cursect = none) :
    r.cursect = none ∧ item = none := by
  cases h with
  | comment => exact ⟨hnone, rfl⟩
  | blank => exact ⟨(append_same r []).2.1 ▸ hnone, rfl⟩
  | more sec hline hsec =>
    rw [(append_same r _).2.1, hsec] at hnone
    cases hnone
  | header => cases hnone
  | option sec name value hline hown hno hsec =>
    dsimp only at hnone
    rw [hsec] at hnone
    cases hnone

/-- The items in front may be taken, if the reader can take them. -/
theorem Took.inOrder (h : Took lower r line item r') (is : List Item)
    (hin : InOrder r (item.toList ++ is)) : InOrder r' is := by
  obtain ⟨hsections, hoptions⟩ := h.moves lower is
  refine ⟨fun hnone => ?_, hsections ▸ hin.sections, hoptions ▸ hin.options, fun p hp => ?_⟩
  · obtain ⟨hno, rfl⟩ := h.headed lower hnone
    exact hin.headed hno
  · exact hin.keyed p (by rw [List.filterMap_append]; exact List.mem_append_right _ hp)

theorem nodup_snoc {α : Type} (l : List α) (a : α) (hl : l.Nodup) (ha : a ∉ l) : (l ++ [a]).Nodup := by
  refine List.nodup_append.mpr ⟨hl, List.nodup_singleton a, fun b hb c hc heq => ?_⟩
  rw [List.mem_singleton] at hc
  exact ha (hc ▸ heq ▸ hb)

/-- What always holds of the reader. -/
structure Sound (r : Reader) : Prop where
  idle : Idle r
  clean : r.bogus = []
  defaults : defaultSection ∉ r.sections
  sections : r.sections.Nodup
  options : (r.options.map Prod.fst).Nodup

theorem Took.sound (h : Took lower r line item r') (hs : Sound r) : Sound r' := by
  have hidle := h.idle lower hs.idle
  cases h with
  | comment => exact hs
  | blank =>
    obtain ⟨hsections, -, -, -, hbogus⟩ := append_same r []
    exact ⟨hidle, hbogus.trans hs.clean, hsections ▸ hs.defaults, hsections ▸ hs.sections,
      (append_options r []) ▸ hs.options⟩
  | more =>
    obtain ⟨hsections, -, -, -, hbogus⟩ := append_same r (strip line)
    exact ⟨hidle, hbogus.trans hs.clean, hsections ▸ hs.defaults, hsections ▸ hs.sections,
      (append_options r _) ▸ hs.options⟩
  | header name hline hown hname hnew =>
    refine ⟨hidle, hs.clean, ?_, ?_, hs.options⟩
    · dsimp only
      split
      · exact hs.defaults
      · next hne =>
        rw [List.mem_append, List.mem_singleton, not_or]
        exact ⟨hs.defaults, Ne.symm hne⟩
    · dsimp only
      split
      · exact hs.sections
      · exact nodup_snoc r.sections name hs.sections hnew
  | option sec name value hline hown hnone hsec hopt hname hnew =>
    refine ⟨hidle, hs.clean, hs.defaults, hs.sections, ?_⟩
    rw [List.map_append]
    exact nodup_snoc _ _ hs.options hnew

/-- The reader goes on where the items are in order. -/
theorem InOrder.took (hempty : lower [] = []) (hs : Sound r) (raw : List Bytes)
    (h : InOrder r (itemsFrom lower r (line :: raw))) : ∃ item r', Took lower r line item r' := by
  cases hline : isContent (strip line) with
  | false =>
    rcases comment_or_blank line hline with hcomment | hblank
    · exact ⟨none, r, .comment hcomment⟩
    · exact ⟨none, _, .blank hblank⟩
  | true =>
    rw [itemsFrom, ConfigParser.items, if_pos hline] at h
    by_cases hmore : r.optname ≠ [] ∧ r.indentLevel < indent line
    · obtain ⟨sec, hsec⟩ := Option.ne_none_iff_exists'.mp fun hnone => hmore.1 (hs.idle hnone)
      exact ⟨_, _, .more sec hline hsec hmore.1 hmore.2⟩
    · rw [if_neg hmore] at h
      cases hname : sectcre (strip line) with
      | some name =>
        rw [hname] at h
        refine ⟨_, _, .header name hline hmore hname fun hmem => ?_⟩
        have hnodup := h.sections
        dsimp only at hnodup
        rw [List.filterMap_cons, Item.headerName] at hnodup
        split at hnodup
        · next hd =>
          split at hd
          · next heq => exact hs.defaults (heq ▸ hmem)
          · cases hd
        · next hd =>
          split at hd
          · cases hd
          · cases hd
            exact (List.nodup_append.mp hnodup).2.2 name hmem name List.mem_cons_self rfl
      | none =>
        rw [hname] at h
        obtain ⟨sec, hsec⟩ : ∃ sec, r.cursect = some sec := by
          refine Option.ne_none_iff_exists'.mp fun hnone => ?_
          have hhead := h.headed hnone _ rfl
          cases hhead
        have hkey : optionName lower (strip line) ≠ [] :=
          h.keyed _ (by rw [List.filterMap_cons]; exact List.mem_cons_self)
        cases hopt : optcre (strip line) with
        | none =>
          rw [optionName, hopt] at hkey
          exact absurd hempty hkey
        | some p =>
          have hsame : optionName lower (strip line) = lower p.1 := by
            rw [optionName, hopt]
            rfl
          refine ⟨_, _, .option sec p.1 p.2 hline hmore hname hsec hopt (fun hnil => ?_) fun hmem => ?_⟩
          · rw [hsame, hnil] at hkey
            exact hkey hempty
          · have hnodup := h.options
            dsimp only at hnodup
            rw [List.filterMap_cons, Item.optionName, hsec, hsame] at hnodup
            exact (List.nodup_append.mp hnodup).2.2 _ hmem _ List.mem_cons_self rfl

theorem readLines_of (hempty : lower [] = []) (raw : List Bytes) (hs : Sound r)
    (h : InOrder r (itemsFrom lower r raw)) :
    ∃ r', readLines lower r raw = .ok r' ∧ Sound r' := by
  induction raw generalizing r with
  | nil => exact ⟨r, rfl, hs⟩
  | cons line raw ih =>
    obtain ⟨item, r', htook⟩ := h.took lower hempty hs raw
    rw [htook.items] at h
    obtain ⟨r'', hr'', hs''⟩ := ih (htook.sound lower hs) (htook.inOrder lower _ h)
    refine ⟨r'', ?_, hs''⟩
    rw [readLines, htook.run]
    exact hr''

/-- The items in front were in order, if what comes after them is. -/
theorem Took.inOrder_cons (hempty : ∀ s, lower s = [] → s = []) (h : Took lower r line item r')
    (is : List Item) (hin : InOrder r' is) :
    InOrder r (item.toList ++ is) := by
  obtain ⟨hsections, hoptions⟩ := h.moves lower is
  refine ⟨fun hnone => ?_, hsections ▸ hin.sections, hoptions ▸ hin.options, fun p hp => ?_⟩
  · cases h with
    | comment => exact hin.headed hnone
    | blank => exact hin.headed ((append_same r []).2.1.trans hnone)
    | more sec hline hsec =>
      rw [hsec] at hnone
      cases hnone
    | header =>
      rintro item ⟨⟩
      rfl
    | option sec name value hline hown hno hsec =>
      rw [hsec] at hnone
      cases hnone
  · rw [List.filterMap_append, List.mem_append] at hp
    rcases hp with hp | hp
    · cases h with
      | comment => cases hp
      | blank => cases hp
      | more => cases hp
      | header => cases hp
      | option sec name value hline hown hno hsec hopt hname =>
        cases List.mem_singleton.mp hp
        exact fun hnil => hname (hempty name hnil)
    · exact hin.keyed p hp

/-- The items the reader has taken were in order. -/
theorem inOrder_of (hempty : ∀ s, lower s = [] → s = []) (raw : List Bytes) (hs : Sound r)
    (h : readLines lower r raw = .ok r') (hclean : r'.bogus = []) : InOrder r (itemsFrom lower r raw) := by
  induction raw generalizing r with
  | nil =>
    refine ⟨fun _ _ hitem => (by cases hitem), ?_, ?_, fun _ hp => (by cases hp)⟩
    · exact (List.append_nil r.sections).symm ▸ hs.sections
    · exact (List.append_nil (r.options.map Prod.fst)).symm ▸ hs.options
  | cons line raw ih =>
    obtain ⟨r₁, hline, hrest⟩ := bind_eq_ok _ _ _ h
    have hclean₁ : r₁.bogus = [] := List.prefix_nil.mp (hclean ▸ readLines_bogus lower raw hrest)
    obtain ⟨item, htook⟩ := took lower hs.idle hline hclean₁
    rw [htook.items]
    exact htook.inOrder_cons lower hempty _ (ih (htook.sound lower hs) hrest)

theorem sound_start : Sound {} := ⟨fun _ => rfl, rfl, List.not_mem_nil, List.nodup_nil, List.nodup_nil⟩

/-- A file is read exactly if it is regular. -/
theorem read_iff (hempty : ∀ s, lower s = [] ↔ s = []) (text : Bytes) :
    (∃ r, read lower text = .ok r) ↔ Regular lower text := by
  unfold read
  constructor
  · rintro ⟨r, hr⟩
    split at hr
    · next hutf8 =>
      obtain ⟨r', hlines, hr⟩ := bind_eq_ok _ _ _ hr
      split at hr
      · next hclean =>
        have hin := inOrder_of lower (fun s => (hempty s).mp) (textLines text) sound_start hlines hclean
        exact ⟨hutf8, hin.headed rfl, hin.sections, hin.options, hin.keyed⟩
      · cases hr
    · cases hr
  · intro hregular
    rw [if_pos hregular.utf8]
    obtain ⟨r, hr, hs⟩ := readLines_of lower ((hempty []).mpr rfl) (textLines text) sound_start
      ⟨fun _ => hregular.headed, hregular.sections, hregular.options, hregular.keyed⟩
    refine ⟨r, ?_⟩
    rw [hr]
    exact if_pos hs.clean

/-! ## What was read -/

def Item.isMore : Item → Bool
  | .more _ _ _ => true
  | _ => false

/-- The lines that go on with the value of the option right above. -/
def moreLines (is : List Item) : List Bytes :=
  (is.takeWhile Item.isMore).filterMap fun
    | .more _ _ line => some line
    | _ => none

/-- The option that the next lines can go on with. -/
def AtOption (r : Reader) (key : Bytes × Bytes) : Prop := r.cursect = some key.1 ∧ r.optname = key.2

theorem mem_of_lookup {α β : Type} [BEq α] [LawfulBEq α] (l : List (α × β)) (key : α) (value : β)
    (h : l.lookup key = some value) :
    key ∈ l.map Prod.fst := by
  obtain ⟨front, back, hl, -⟩ := List.lookup_eq_some_iff.mp h
  rw [hl]
  simp

/-- `rest` are the lines that `raw` puts behind those an option has: the lines right below it, and no others
but empty ones. -/
structure Grown (r : Reader) (key : Bytes × Bytes) (raw rest : List Bytes) : Prop where
  stripped : ∀ l ∈ rest, rstrip l = l
  below : AtOption r key → rest.filter (· ≠ []) = moreLines (itemsFrom lower r raw)
  elsewhere : ¬AtOption r key → rest = []

theorem Grown.append {r₁ : Reader} {key : Bytes × Bytes} {raw rest : List Bytes}
    (h : Grown lower r₁ key raw rest) (hat : AtOption r key) (hat₁ : AtOption r₁ key) (value : Bytes)
    (hstrip : rstrip value = value)
    (hmore : moreLines (itemsFrom lower r (line :: raw)) =
      [value].filter (· ≠ []) ++ moreLines (itemsFrom lower r₁ raw)) :
    Grown lower r key (line :: raw) (value :: rest) where
  stripped := List.forall_mem_cons.mpr ⟨hstrip, h.stripped⟩
  below _ := by
    rw [hmore, ← h.below hat₁, ← List.filter_append]
    rfl
  elsewhere hno := absurd hat hno

theorem Grown.apart {r₁ : Reader} {key : Bytes × Bytes} {raw rest : List Bytes}
    (h : Grown lower r₁ key raw rest) (hat : ¬AtOption r key) (hat₁ : ¬AtOption r₁ key) :
    Grown lower r key (line :: raw) rest :=
  ⟨h.stripped, fun hc => absurd hc hat, fun _ => h.elsewhere hat₁⟩

/-- An option that has been read keeps its lines and gets more. -/
theorem lookup_grows (key : Bytes × Bytes) (hkey : key.2 ≠ []) (raw : List Bytes) (hs : Sound r)
    (lines : List Bytes) (hlines : r.options.lookup key = some lines) (h : readLines lower r raw = .ok r')
    (hclean : r'.bogus = []) :
    ∃ rest, r'.options.lookup key = some (lines ++ rest) ∧ Grown lower r key raw rest := by
  induction raw generalizing r lines with
  | nil =>
    cases h
    exact ⟨[], by rw [List.append_nil, hlines], fun l hl => absurd hl List.not_mem_nil, fun _ => rfl,
      fun _ => rfl⟩
  | cons line raw ih =>
    obtain ⟨r₁, hline, hrest⟩ := bind_eq_ok _ _ _ h
    obtain ⟨item, htook⟩ := took lower hs.idle hline
      (List.prefix_nil.mp (hclean ▸ readLines_bogus lower raw hrest))
    have hitems := htook.items lower raw
    have hs₁ := htook.sound lower hs
    -- a line that is appended to the option it stands below
    have happend : ∀ value, rstrip value = value → r₁ = r.append value →
        moreLines (itemsFrom lower r (line :: raw)) =
          [value].filter (· ≠ []) ++ moreLines (itemsFrom lower r₁ raw) →
        ∃ rest, r'.options.lookup key = some (lines ++ rest) ∧ Grown lower r key (line :: raw) rest := by
      intro value hstrip hvalue hmore
      have hlookup := append_lookup r value key
      have hsame : AtOption r₁ key ↔ AtOption r key := by
        rw [hvalue, AtOption, (append_same r value).2.1, (append_same r value).2.2.1]
        rfl
      rw [hlines, ← hvalue, Option.map_some] at hlookup
      by_cases hat : AtOption r key
      · rw [if_pos ⟨by rw [hat.2]; exact hkey, hat⟩] at hlookup
        obtain ⟨rest, hfin, hgrown⟩ := ih hs₁ _ hlookup hrest
        rw [List.append_assoc] at hfin
        exact ⟨value :: rest, hfin, hgrown.append lower hat (hsame.mpr hat) value hstrip hmore⟩
      · rw [if_neg fun hc => hat hc.2] at hlookup
        obtain ⟨rest, hfin, hgrown⟩ := ih hs₁ _ hlookup hrest
        exact ⟨rest, hfin, hgrown.apart lower hat fun hc => hat (hsame.mp hc)⟩
    -- a line that ends the options above it
    have hbreak : r₁.options.lookup key = some lines → ¬AtOption r₁ key →
        moreLines (itemsFrom lower r (line :: raw)) = [] →
        ∃ rest, r'.options.lookup key = some (lines ++ rest) ∧ Grown lower r key (line :: raw) rest := by
      intro hlookup hno hmore
      obtain ⟨rest, hfin, hgrown⟩ := ih hs₁ _ hlookup hrest
      rw [hgrown.elsewhere hno] at hfin
      exact ⟨[], hfin, fun l hl => absurd hl List.not_mem_nil, fun _ => hmore.symm, fun _ => rfl⟩
    cases htook with
    | comment =>
      obtain ⟨rest, hfin, hgrown⟩ := ih hs lines hlines hrest
      exact ⟨rest, hfin, hgrown.stripped, fun hat => hitems ▸ hgrown.below hat, hgrown.elsewhere⟩
    | blank => exact happend [] rfl rfl (by rw [hitems]; rfl)
    | more sec hcontent =>
      have hkept : [strip line].filter (· ≠ []) = [strip line] :=
        List.filter_eq_self.mpr fun l hl =>
          decide_eq_true (List.mem_singleton.mp hl ▸ ((isContent_iff _).mp hcontent).1)
      refine happend (strip line) (rstrip_strip line) rfl ?_
      rw [hitems, hkept]
      rfl
    | header name hcontent hown hname hnew =>
      exact hbreak hlines (fun hat => hkey hat.2.symm) (by rw [hitems]; rfl)
    | option sec name value hcontent hown hnone hsec hopt hname hnew =>
      refine hbreak ?_ (fun hat => hnew ?_) (by rw [hitems]; rfl)
      · rw [List.lookup_append, hlines, Option.some_or]
      · have hsame : (sec, lower name) = key := Prod.ext (Option.some.inj (hsec.symm.trans hat.1)) hat.2
        rw [hsame]
        exact mem_of_lookup _ _ _ hlines

/-- The option stands in the items with its value, and the lines below are what goes on with it. -/
def Stands (key : Bytes × Bytes) (is : List Item) (value : Bytes) (more : List Bytes) : Prop :=
  ∃ front back, is = front ++ .option key.1 key.2 value :: back ∧ moreLines back = more

/-- What the reader has of an option is what stands among the items: nothing, or its line and the lines with
content below it. -/
def Looked (key : Bytes × Bytes) (is : List Item) (found : Option (List Bytes)) : Prop :=
  (found = none ∧ key ∉ is.filterMap Item.optionName) ∨
    ∃ value rest, found = some (value :: rest) ∧ (∀ l ∈ value :: rest, rstrip l = l) ∧
      Stands key is value (rest.filter (· ≠ []))

theorem Looked.behind {key : Bytes × Bytes} {is : List Item} {found : Option (List Bytes)} (item : Option Item)
    (hitem : key ∉ item.toList.filterMap Item.optionName) (h : Looked key is found) :
    Looked key (item.toList ++ is) found := by
  rcases h with ⟨hfound, habsent⟩ | ⟨value, rest, hfound, hvalue, front, back, his, hmore⟩
  · refine .inl ⟨hfound, ?_⟩
    rw [List.filterMap_append, List.mem_append, not_or]
    exact ⟨hitem, habsent⟩
  · exact .inr ⟨value, rest, hfound, hvalue, item.toList ++ front, back,
      by rw [his, List.append_assoc], hmore⟩

theorem lookup_items (key : Bytes × Bytes) (hkey : key.2 ≠ []) (raw : List Bytes) (hs : Sound r)
    (hnone : r.options.lookup key = none) (h : readLines lower r raw = .ok r') (hclean : r'.bogus = []) :
    Looked key (itemsFrom lower r raw) (r'.options.lookup key) := by
  induction raw generalizing r with
  | nil =>
    cases h
    exact .inl ⟨hnone, List.not_mem_nil⟩
  | cons line raw ih =>
    obtain ⟨r₁, hline, hrest⟩ := bind_eq_ok _ _ _ h
    obtain ⟨item, htook⟩ := took lower hs.idle hline
      (List.prefix_nil.mp (hclean ▸ readLines_bogus lower raw hrest))
    have hs₁ := htook.sound lower hs
    rw [htook.items lower raw]
    cases htook with
    | comment => exact (ih hs₁ hnone hrest).behind none List.not_mem_nil
    | blank => exact (ih hs₁ (by rw [append_lookup, hnone]; rfl) hrest).behind none List.not_mem_nil
    | more => exact (ih hs₁ (by rw [append_lookup, hnone]; rfl) hrest).behind (some _) List.not_mem_nil
    | header => exact (ih hs₁ hnone hrest).behind (some _) List.not_mem_nil
    | option sec name value hcontent hown hno hsec hopt hname hnew =>
      by_cases hsame : (sec, lower name) = key
      · right
        have hlookup : (r.options ++ [((sec, lower name), [strip value])]).lookup key = some [strip value] := by
          rw [List.lookup_append, hnone, Option.none_or, hsame, List.lookup_cons_self]
        have hat : AtOption { r with
            options := r.options ++ [((sec, lower name), [strip value])]
            optname := lower name
            indentLevel := indent line } key := ⟨by rw [← hsame]; exact hsec, by rw [← hsame]⟩
        obtain ⟨rest, hfin, hgrown⟩ := lookup_grows lower key hkey raw hs₁ _ hlookup hrest hclean
        refine ⟨strip value, rest, hfin, List.forall_mem_cons.mpr ⟨rstrip_strip value, hgrown.stripped⟩, [], _, ?_,
          (hgrown.below hat).symm⟩
        rw [← hsame]
        rfl
      · refine (ih hs₁ ?_ hrest).behind (some _) fun hmem => hsame (List.mem_singleton.mp hmem).symm
        rw [List.lookup_append, hnone, Option.none_or, List.lookup_cons, beq_false_of_ne (Ne.symm hsame)]
        rfl

theorem Stands.mem (key : Bytes × Bytes) (is : List Item) (value : Bytes) (more : List Bytes)
    (h : Stands key is value more) :
    key ∈ is.filterMap Item.optionName := by
  obtain ⟨front, back, rfl, -⟩ := h
  rw [List.filterMap_append, List.mem_append]
  exact .inr List.mem_cons_self

/-- In a file in order, an option has one place. -/
theorem Stands.unique (key : Bytes × Bytes) (is : List Item) (hnodup : (is.filterMap Item.optionName).Nodup)
    (value value' : Bytes) (more more' : List Bytes) (h : Stands key is value more)
    (h' : Stands key is value' more') : value = value' ∧ more = more' := by
  obtain ⟨front, back, his, hmore⟩ := h
  obtain ⟨front', back', his', hmore'⟩ := h'
  -- a second option of the same name behind the first
  have hsecond : ∀ (u v : List Item) (x x' : Bytes),
      ¬((Item.option key.1 key.2 x :: (u ++ .option key.1 key.2 x' :: v)).filterMap Item.optionName).Nodup := by
    intro u v x x' hn
    refine (List.nodup_cons.mp (show (key ::
      (u ++ .option key.1 key.2 x' :: v).filterMap Item.optionName).Nodup from hn)).1 ?_
    rw [List.filterMap_append, List.mem_append]
    exact .inr List.mem_cons_self
  rcases List.append_eq_append_iff.mp (his.symm.trans his') with ⟨u, hfront, hback⟩ | ⟨u, hfront, hback⟩
  · cases u with
    | nil =>
      obtain ⟨hhead, hrest⟩ := List.cons.inj (hback : _ :: back = _ :: back')
      cases hhead
      exact ⟨rfl, by rw [← hmore, ← hmore', hrest]⟩
    | cons i u =>
      obtain ⟨rfl, hrest⟩ := List.cons.inj hback
      rw [his, hrest, List.filterMap_append] at hnodup
      exact absurd (List.nodup_append.mp hnodup).2.1 (hsecond u back' value value')
  · cases u with
    | nil =>
      obtain ⟨hhead, hrest⟩ := List.cons.inj (hback : _ :: back' = _ :: back)
      cases hhead
      exact ⟨rfl, by rw [← hmore, ← hmore', hrest]⟩
    | cons i u =>
      obtain ⟨rfl, hrest⟩ := List.cons.inj hback
      rw [his', hrest, List.filterMap_append] at hnodup
      exact absurd (List.nodup_append.mp hnodup).2.1 (hsecond u back value' value)

/-- The reader has the names and options of the items. -/
theorem readLines_moves (raw : List Bytes) (hs : Sound r) (h : readLines lower r raw = .ok r')
    (hclean : r'.bogus = []) :
    r'.sections = r.sections ++ (itemsFrom lower r raw).filterMap Item.headerName ∧
      r'.options.map Prod.fst = r.options.map Prod.fst ++
      (itemsFrom lower r raw).filterMap Item.optionName := by
  induction raw generalizing r with
  | nil =>
    cases h
    exact ⟨(List.append_nil _).symm, (List.append_nil _).symm⟩
  | cons line raw ih =>
    obtain ⟨r₁, hline, hrest⟩ := bind_eq_ok _ _ _ h
    obtain ⟨item, htook⟩ := took lower hs.idle hline
      (List.prefix_nil.mp (hclean ▸ readLines_bogus lower raw hrest))
    obtain ⟨hsections, hoptions⟩ := ih (htook.sound lower hs) hrest
    obtain ⟨hfront, hfront'⟩ := htook.moves lower (itemsFrom lower r₁ raw)
    rw [htook.items lower raw]
    exact ⟨hsections.trans hfront, hoptions.trans hfront'⟩

/-! ## Files that were read -/

theorem read_ok (text : Bytes) (r : Reader) (h : read lower text = .ok r) :
    readLines lower {} (textLines text) = .ok r ∧ r.bogus = [] := by
  unfold read at h
  split at h
  · obtain ⟨r', hlines, h⟩ := bind_eq_ok _ _ _ h
    split at h
    · next hclean =>
      cases h
      exact ⟨hlines, hclean⟩
    · cases h
  · cases h

theorem read_sections (text : Bytes) (r : Reader) (h : read lower text = .ok r) :
    r.sections = (fileItems lower text).filterMap Item.headerName := by
  obtain ⟨hlines, hclean⟩ := read_ok lower text r h
  exact (readLines_moves lower (textLines text) sound_start hlines hclean).1

/-- What is found under a name: nothing, or what the items of the file say. -/
theorem read_lookup (text : Bytes) (hregular : Regular lower text) (r : Reader)
    (h : read lower text = .ok r) (key : Bytes × Bytes) :
    Looked key (fileItems lower text) (r.options.lookup key) := by
  obtain ⟨hlines, hclean⟩ := read_ok lower text r h
  by_cases hkey : key.2 = []
  · have habsent : key ∉ (fileItems lower text).filterMap Item.optionName :=
      fun hmem => hregular.keyed key hmem hkey
    refine .inl ⟨?_, habsent⟩
    have hoptions := (readLines_moves lower (textLines text) sound_start hlines hclean).2
    cases hlookup : r.options.lookup key with
    | none => rfl
    | some lines =>
      have hmem := mem_of_lookup _ _ _ hlookup
      rw [hoptions] at hmem
      exact absurd hmem habsent
  · exact lookup_items lower key hkey (textLines text) sound_start rfl hlines hclean

end Steps

end Minilog.Lib.ConfigParser
