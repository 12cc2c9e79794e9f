import Minilog.Viewer.Backward
import Minilog.Viewer.Search

/-! Chains of records.

The server writes whole records, so that every file of a chain is a sequence of them. Then the readers can be
described by what stands before and behind a cursor: `readForward_records` and `readBackward_records`,
wherever the records are divided into files. -/
namespace Minilog.Viewer
open Lib
set_option autoImplicit false

/-- What the server writes as one line: not empty, one line, and plain for the scanner. -/
structure Record where
  text : Bytes
  nonempty : text ≠ []
  oneLine : lf ∉ text
  plain : Plain text

def recordsText (rs : List Record) : Bytes := rs.flatMap fun r => r.text ++ [lf]

/-- Records with the offsets of their first bytes, the first of them at `o`. -/
def located (o : ℕ) (rs : List Record) : List (ℕ × Bytes) := counted o (rs.map Record.text)

theorem recordsText_append (rs qs : List Record) : recordsText (rs ++ qs) = recordsText rs ++ recordsText qs :=
  List.flatMap_append

theorem recordsText_cons (r : Record) (rs : List Record) :
    recordsText (r :: rs) = r.text ++ lf :: recordsText rs := by
  rw [recordsText, List.flatMap_cons, List.append_assoc, List.singleton_append]
  rfl

theorem recordsText_flatten (gs : List (List Record)) :
    (gs.map recordsText).flatten = recordsText gs.flatten := by
  induction gs with
  | nil => rfl
  | cons g gs ih => rw [List.map_cons, List.flatten_cons, List.flatten_cons, recordsText_append, ih]

theorem recordsText_eq_nil (rs : List Record) : recordsText rs = [] ↔ rs = [] := by
  cases rs with
  | nil => exact ⟨fun _ => rfl, fun _ => rfl⟩
  | cons r rs =>
    rw [recordsText_cons]
    exact ⟨fun h => absurd h (by simp), fun h => absurd h (List.cons_ne_nil r rs)⟩

theorem located_cons (o : ℕ) (r : Record) (rs : List Record) :
    located o (r :: rs) = (o, r.text) :: located (o + (r.text.length + 1)) rs := rfl

theorem located_append (o : ℕ) (rs qs : List Record) :
    located o (rs ++ qs) = located o rs ++ located (o + (recordsText rs).length) qs := by
  induction rs generalizing o with
  | nil => rfl
  | cons r rs ih =>
    rw [List.cons_append, located_cons, located_cons, ih, recordsText_cons, List.length_append,
      List.length_cons, List.cons_append]
    congr 3
    omega

theorem located_texts (o : ℕ) (rs : List Record) : (located o rs).map Prod.snd = rs.map Record.text := by
  induction rs generalizing o with
  | nil => rfl
  | cons r rs ih => rw [located_cons, List.map_cons, List.map_cons, ih]

theorem located_bounds (o : ℕ) (rs : List Record) :
    ∀ p ∈ located o rs, o ≤ p.1 ∧ p.1 + p.2.length < o + (recordsText rs).length := by
  induction rs generalizing o with
  | nil => exact fun p hp => absurd hp List.not_mem_nil
  | cons r rs ih =>
    intro p hp
    rw [recordsText_cons, List.length_append, List.length_cons]
    cases List.mem_cons.mp hp with
    | inl hp =>
      rw [hp]
      simp only
      omega
    | inr hp =>
      have := ih _ p hp
      omega

theorem located_nonempty (o : ℕ) (rs : List Record) : ∀ p ∈ located o rs, p.2 ≠ [] := by
  intro p hp
  have hmem : p.2 ∈ (located o rs).map Prod.snd := List.mem_map_of_mem hp
  rw [located_texts] at hmem
  obtain ⟨r, -, hr⟩ := List.mem_map.mp hmem
  rw [← hr]
  exact r.nonempty

theorem filled_located (o : ℕ) (qs : List Record) : filled (located o qs) = located o qs := by
  apply List.filter_eq_self.mpr
  intro p hp
  simp [located_nonempty o qs p hp]

theorem located_pairwise (o : ℕ) (rs : List Record) : (located o rs).Pairwise fun p q => p.1 < q.1 := by
  induction rs generalizing o with
  | nil => exact List.Pairwise.nil
  | cons r rs ih =>
    rw [located_cons]
    refine List.Pairwise.cons ?_ (ih _)
    intro p hp
    have := located_bounds _ rs p hp
    simp only
    omega

/-- A cut of the lines kept is a cut of the records, right in front of the first line behind it. -/
theorem kept_located_split (keeps : Bytes → Bool) (o : ℕ) (rs : List Record) (front back : List (ℕ × Bytes))
    (h : kept keeps (located o rs) = front ++ back) :
    ∃ before behind, rs = before ++ behind ∧ kept keeps (located o before) = front ∧
      kept keeps (located (o + (recordsText before).length) behind) = back ∧
      ∀ p, back.head? = some p → p.1 = o + (recordsText before).length := by
  induction rs generalizing o front with
  | nil =>
    obtain ⟨hfront, hback⟩ := List.append_eq_nil_iff.mp (h.symm : front ++ back = [])
    exact ⟨[], [], rfl, hfront.symm, hback.symm, fun p hp => absurd hp (by rw [hback]; simp)⟩
  | cons r rs ih =>
    have hone : kept keeps (located o (r :: rs)) =
        kept keeps (located o [r]) ++ kept keeps (located (o + (recordsText [r]).length) rs) := by
      rw [← kept_append, ← located_append]
      rfl
    have hrest : ∀ front', front = kept keeps (located o [r]) ++ front' →
        kept keeps (located (o + (recordsText [r]).length) rs) = front' ++ back →
        ∃ before behind, r :: rs = before ++ behind ∧ kept keeps (located o before) = front ∧
          kept keeps (located (o + (recordsText before).length) behind) = back ∧
          ∀ p, back.head? = some p → p.1 = o + (recordsText before).length := by
      intro front' hfront' hcut
      obtain ⟨before, behind, hrs, hf, hb, hfirst⟩ := ih _ front' hcut
      have hlen : o + (recordsText (r :: before)).length =
          o + (recordsText [r]).length + (recordsText before).length := by
        rw [Nat.add_assoc, ← List.length_append, ← recordsText_append]
        rfl
      refine ⟨r :: before, behind,
        by rw [hrs, List.cons_append], ?_, by rw [hlen]; exact hb, by rw [hlen]; exact hfirst⟩
      rw [hfront', ← hf, ← kept_append, ← located_append]
      rfl
    rw [hone] at h
    by_cases hkeep : kept keeps (located o [r]) = []
    · rw [hkeep, List.nil_append] at h
      exact hrest front (by rw [hkeep, List.nil_append]) h
    · have hsingle : kept keeps (located o [r]) = [(o, r.text)] := by
        have hsub : (kept keeps (located o [r])).Sublist [(o, r.text)] := List.filter_sublist
        exact hsub.eq_of_length_le (List.length_pos_iff.mpr hkeep)
      cases front with
      | cons q front' =>
        rw [hsingle, List.singleton_append, List.cons_append, List.cons_eq_cons] at h
        exact hrest front' (by rw [hsingle, h.1]; rfl) h.2
      | nil =>
        refine ⟨[], r :: rs, rfl, rfl, ?_, ?_⟩
        · rw [← List.nil_append back, ← h, ← hone]
          rfl
        · intro p hp
          rw [← List.nil_append back, ← h, hsingle] at hp
          rw [← Option.some.inj hp]
          rfl

/-- A file of records has their lines, and nothing behind the last line end. -/
theorem splitLines_records (o : ℕ) (rs : List Record) :
    splitLines o (recordsText rs) = located o rs ++ [(o + (recordsText rs).length, [])] := by
  induction rs generalizing o with
  | nil => rfl
  | cons r rs ih =>
    rw [recordsText_cons, splitLines_terminated o r.text _ r.oneLine, ih, located_cons, List.length_append,
      List.length_cons, List.cons_append]
    congr 4
    omega

theorem kept_splitLines_records (keeps : Bytes → Bool) (o : ℕ) (rs : List Record) :
    kept keeps (splitLines o (recordsText rs)) = kept keeps (located o rs) := by
  rw [splitLines_records, kept_append]
  exact List.append_nil _

theorem kept_linesOf_records (keeps : Bytes → Bool) (o : ℕ) (gs : List (List Record)) :
    kept keeps (linesOf o (gs.map recordsText)) = kept keeps (located o gs.flatten) := by
  induction gs generalizing o with
  | nil => rfl
  | cons g gs ih =>
    rw [List.map_cons, linesOf, kept_append, kept_splitLines_records, ih, List.flatten_cons, located_append,
      kept_append]

/-- A text of records cut at a line end is cut between two records. -/
theorem recordsText_cut (rs : List Record) (a t : Bytes) (h : recordsText rs = a ++ t)
    (hcut : a = [] ∨ a.getLast? = some lf ∨ t = []) :
    ∃ before behind, rs = before ++ behind ∧ a = recordsText before ∧ t = recordsText behind := by
  induction rs generalizing a with
  | nil =>
    obtain ⟨ha, ht⟩ := List.append_eq_nil_iff.mp h.symm
    exact ⟨[], [], rfl, ha, ht⟩
  | cons r rs ih =>
    by_cases ha : a = []
    · rw [ha, List.nil_append] at h
      exact ⟨[], r :: rs, rfl, ha, h.symm⟩
    have hcut := hcut.resolve_left ha
    rw [recordsText_cons] at h
    cases List.append_eq_append_iff.mp h with
    | inr hinside =>
      -- the cut is in front of the first line end
      obtain ⟨u, hr, ht⟩ := hinside
      cases hcut with
      | inl hlast =>
        refine absurd ?_ r.oneLine
        rw [hr]
        exact List.mem_append_left u (List.mem_of_getLast? hlast)
      | inr hnil => exact absurd (ht.symm.trans hnil) (by simp)
    | inl hbehind =>
      obtain ⟨u, hau, hu⟩ := hbehind
      cases u with
      | nil =>
        rw [List.append_nil] at hau
        cases hcut with
        | inl hlast => exact absurd (List.mem_of_getLast? (hau ▸ hlast)) r.oneLine
        | inr hnil =>
          rw [hnil] at hu
          exact absurd hu (by simp)
      | cons c u =>
        obtain ⟨hc, hrest⟩ := List.cons.inj hu
        have hcut' : u = [] ∨ u.getLast? = some lf ∨ t = [] := by
          by_cases hnil : u = []
          · exact .inl hnil
          · refine .inr (hcut.imp_left fun hlast => ?_)
            rwa [hau, List.getLast?_append, List.getLast?_cons_of_ne_nil hnil,
              List.getLast?_eq_some_getLast hnil, Option.some_or, ← List.getLast?_eq_some_getLast hnil] at hlast
        obtain ⟨before, behind, hrs, hb, ht⟩ := ih u hrest hcut'
        refine ⟨r :: before, behind, by rw [hrs, List.cons_append], ?_, ht⟩
        rw [recordsText_cons, hau, ← hb, hc]

/-! ## Chains of records -/

/-- The chain holds the records, divided into files in some way. -/
def Stores (dir : Directory) (sink : Sink) (rs : List Record) : Prop :=
  ∃ gs : List (List Record), chainTexts dir sink = gs.map recordsText ∧ gs.flatten = rs

section Chain

theorem stores_of_groups (dir : Directory) (sink : Sink) (gs : List (List Record))
    (h : (candidates sink).filterMap dir = gs.map recordsText) : Stores dir sink gs.flatten := by
  refine ⟨gs.filter fun g => !g.isEmpty, ?_, List.flatten_filter_not_isEmpty⟩
  have hempty : (fun g => !(recordsText g).isEmpty) = fun g : List Record => !g.isEmpty := by
    funext g
    rw [Bool.eq_iff_iff]
    simp only [Bool.not_eq_true', List.isEmpty_eq_false_iff, ne_eq, recordsText_eq_nil]
  rw [chainTexts, h, List.filter_map]
  exact congrArg (fun p => List.map recordsText (List.filter p gs)) hempty

variable (dir : Directory) (sink : Sink) (rs : List Record) (h : Stores dir sink rs)

include h in
theorem Stores.total : (newFileChain (fun _ => dir) sink).total = (recordsText rs).length := by
  obtain ⟨gs, htexts, hgs⟩ := h
  rw [newFileChain_total, htexts, recordsText_flatten, hgs]

include h in
theorem Stores.lines_plain : ∀ p ∈ chainLines dir sink, p.2.length < maxLineBytes ∧ p.2.getLast? ≠ some cr := by
  obtain ⟨gs, htexts, -⟩ := h
  intro p hp
  rw [chainLines, htexts] at hp
  obtain ⟨bs, c, cs, hsplit, hline⟩ := linesOf_text 0 _ p hp
  have hc : c ∈ gs.map recordsText := by
    rw [hsplit]
    simp
  obtain ⟨g, -, hg⟩ := List.mem_map.mp hc
  rw [← hg, splitLines_records] at hline
  cases List.mem_append.mp hline with
  | inr hend =>
    rw [List.mem_singleton.mp hend]
    exact ⟨Nat.zero_lt_succ _, by simp⟩
  | inl hrec =>
    have hmem : p.2 ∈ (located (0 + bs.flatten.length) g).map Prod.snd := List.mem_map_of_mem hrec
    rw [located_texts] at hmem
    obtain ⟨r, -, hr⟩ := List.mem_map.mp hmem
    rw [← hr]
    exact r.plain

include h in
theorem Stores.kept_lines (keeps : Bytes → Bool) :
    kept keeps (chainLines dir sink) = kept keeps (located 0 rs) := by
  obtain ⟨gs, htexts, hgs⟩ := h
  rw [chainLines, htexts, kept_linesOf_records, hgs]

theorem scanTokens_records (qs : List Record) : scanTokens (recordsText qs) = qs.map Record.text := by
  induction qs with
  | nil => rfl
  | cons r qs ih =>
    have hplain : dropCR r.text = r.text := if_neg r.plain.2
    rw [recordsText_cons, scanTokens_terminated r.text _ r.oneLine, if_pos r.plain.1, hplain, ih, List.map_cons]

/-- What a forward read sees of files of records. -/
theorem sees_records (o : ℕ) (files : List ChainFile) (gs : List (List Record))
    (hholds : Holds dir o files (gs.map recordsText)) :
    (sees dir files 0).map Prod.snd = gs.flatten.map Record.text := by
  induction gs generalizing o files with
  | nil =>
    cases hholds
    rfl
  | cons g gs ih =>
    cases hholds with
    | cons _ f fs _ _ start content size nonempty tail =>
      have hwindow : window (recordsText g) f 0 = recordsText g := by
        unfold window
        rw [List.drop_zero, size, Nat.sub_zero, List.take_length]
      rw [sees, List.map_append, placed_texts, ih _ fs tail, List.flatten_cons, List.map_append]
      unfold fileTokens
      rw [content]
      simp only [hwindow, scanTokens_records]

/-- A place of the chain is between two records of a file. -/
theorem at_groups (gs : List (List Record)) (htexts : chainTexts dir sink = gs.map recordsText) (o : ℕ)
    (f : ChainFile) (a t : Bytes) (later : List ChainFile) (cs : List Bytes)
    (hat : At dir (newFileChain (fun _ => dir) sink) o f a t later cs) :
    ∃ gs₁ g₁ g₂ gs₂, gs = gs₁ ++ (g₁ ++ g₂) :: gs₂ ∧ o = (recordsText (gs₁.flatten ++ g₁)).length ∧
    t = recordsText g₂ ∧
      cs = gs₂.map recordsText := by
  obtain ⟨bs, hsplit, hstart⟩ := hat.texts dir _ _ (newFileChain_holds dir sink) o f a t later cs
  rw [htexts] at hsplit
  obtain ⟨gs₁, gs', hgs', hbs, hrest⟩ := List.map_eq_append_iff.mp hsplit
  obtain ⟨g, gs₂, hgs'', hg, hcs⟩ := List.map_eq_cons_iff.mp hrest
  obtain ⟨g₁, g₂, hg', ha, ht⟩ := recordsText_cut g a t hg hat.boundary
  refine ⟨gs₁, g₁, g₂, gs₂, by rw [hgs', hgs'', hg'], ?_, ht, hcs.symm⟩
  rw [hat.offset, hstart, ← hbs, recordsText_flatten, ha, recordsText_append, List.length_append]

include h in
/-- A place of the chain is between two records. -/
theorem Stores.at_split (keeps : Bytes → Bool) (o : ℕ) (f : ChainFile) (a t : Bytes)
    (later : List ChainFile) (cs : List Bytes)
    (hat : At dir (newFileChain (fun _ => dir) sink) o f a t later cs) :
    ∃ before behind, rs = before ++ behind ∧ o = (recordsText before).length ∧
    ahead keeps o t cs = kept keeps (located o behind) := by
  obtain ⟨gs, htexts, hgs⟩ := h
  obtain ⟨gs₁, g₁, g₂, gs₂, hsplit, hoff, ht, hcs⟩ := at_groups dir sink gs htexts o f a t later cs hat
  refine ⟨gs₁.flatten ++ g₁, g₂ ++ gs₂.flatten, ?_, hoff, ?_⟩
  · rw [← hgs, hsplit, List.flatten_append, List.flatten_cons]
    simp only [List.append_assoc]
  · rw [ahead, ht, kept_splitLines_records, hcs, kept_linesOf_records, located_append, kept_append]

theorem records_split_unique (before behind before' behind' : List Record)
    (h : before ++ behind = before' ++ behind')
    (hlen : (recordsText before).length = (recordsText before').length) :
    before = before' ∧ behind = behind' := by
  have hpos : ∀ u : List Record, (recordsText u).length = 0 → u = [] := by
    intro u hu
    exact (recordsText_eq_nil u).mp (List.length_eq_zero_iff.mp hu)
  cases List.append_eq_append_iff.mp h with
  | inl hu =>
    obtain ⟨u, hb, hbe⟩ := hu
    rw [hb, recordsText_append, List.length_append] at hlen
    have hnil := hpos u (by omega)
    rw [hb, hbe, hnil, List.append_nil, List.nil_append]
    exact ⟨rfl, rfl⟩
  | inr hu =>
    obtain ⟨u, hb, hbe⟩ := hu
    rw [hb, recordsText_append, List.length_append] at hlen
    have hnil := hpos u (by omega)
    rw [hb, hbe, hnil, List.append_nil, List.nil_append]
    exact ⟨rfl, rfl⟩

include h in
/-- Between two records the cursor stands in front of those behind it. -/
theorem Stores.inFront (keeps : Bytes → Bool) (before behind : List Record) (hrs : rs = before ++ behind) :
    InFront keeps dir (newFileChain (fun _ => dir) sink) (recordsText before).length
      (kept keeps (located (recordsText before).length behind)) := by
  have hholds := newFileChain_holds dir sink
  have hstores := h
  obtain ⟨gs, htexts, hgs⟩ := h
  rw [htexts] at hholds
  by_cases hnone : gs = []
  · have hempty : before ++ behind = [] := by rw [← hrs, ← hgs, hnone]; rfl
    obtain ⟨-, hb⟩ := List.append_eq_nil_iff.mp hempty
    rw [hnone] at hholds
    rw [hb]
    left
    generalize (newFileChain (fun _ => dir) sink).files = files at hholds
    cases hholds
    exact ⟨rfl, rfl⟩
  -- the file the cursor is in: the one of the next record, or the last one
  have hplace : ∃ gs₁ g₁ g₂ gs₂, gs = gs₁ ++ (g₁ ++ g₂) :: gs₂ ∧ before = gs₁.flatten ++ g₁ ∧
      (recordsText g₁ = [] ∨
        (recordsText g₁).getLast? = some lf) := by
    have hline : ∀ g : List Record, recordsText g = [] ∨ (recordsText g).getLast? = some lf := by
      intro g
      induction g with
      | nil => exact .inl rfl
      | cons r g ih =>
        right
        rw [recordsText_cons, List.getLast?_append]
        cases ih with
        | inl hnil => rw [hnil]; rfl
        | inr hlast =>
          have hne : recordsText g ≠ [] := fun hn => by rw [hn] at hlast; exact absurd hlast (by simp)
          rw [List.getLast?_cons_of_ne_nil hne, hlast]
          rfl
    rw [← hgs] at hrs
    cases List.flatten_eq_append_iff.mp hrs with
    | inl hcase =>
      obtain ⟨as, bs, hab, hbefore, hbehind⟩ := hcase
      cases bs with
      | cons b bs => exact ⟨as, [], b, bs, hab, by rw [hbefore, List.append_nil], .inl rfl⟩
      | nil =>
        cases as.eq_nil_or_concat with
        | inl hnil =>
          rw [hnil] at hab
          exact absurd hab hnone
        | inr hconcat =>
          obtain ⟨as', g, has⟩ := hconcat
          rw [List.concat_eq_append] at has
          refine ⟨as', g, [], [], ?_, ?_, hline g⟩
          · rw [hab, has, List.append_nil, List.append_nil]
          · rw [hbefore, has, List.flatten_append, List.flatten_singleton]
    | inr hcase =>
      obtain ⟨as, bs, c, cs, ds, hab, hbefore, -⟩ := hcase
      exact ⟨as, bs, c :: cs, ds, hab, hbefore, hline bs⟩
  obtain ⟨gs₁, g₁, g₂, gs₂, hsplit, hbefore, hcut⟩ := hplace
  rw [hsplit, List.map_append, List.map_cons, recordsText_append] at hholds
  obtain ⟨f, later, hat⟩ := text_at dir _ _ (recordsText g₁) (recordsText g₂) _ hholds hcut
  have hoff : (gs₁.map recordsText).flatten.length + (recordsText g₁).length = (recordsText before).length := by
    rw [recordsText_flatten, hbefore, recordsText_append, List.length_append]
  rw [hoff] at hat
  obtain ⟨before', behind', hrs', hlen, hahead⟩ := hstores.at_split dir sink rs keeps _ f _ _ later _ hat
  obtain ⟨-, hbehind⟩ := records_split_unique before behind before' behind' (hrs.symm.trans hrs') hlen
  have hin := hat.inFront keeps dir _ _ f _ _ later _
  rw [hahead, ← hbehind] at hin
  exact hin

include h in
/-- What a forward read sees from between two records. -/
theorem Stores.seesAt_records (before behind : List Record) (hrs : rs = before ++ behind) :
    (seesAt dir (newFileChain (fun _ => dir) sink) (recordsText before).length).map Prod.snd =
      behind.map Record.text := by
  have hin := h.inFront dir sink rs (fun _ => true) before behind hrs
  cases hin with
  | inl hnone =>
    have hbehind : behind.map Record.text = [] := by
      rw [← located_texts (recordsText before).length, ← filled_located, filled, hnone.2]
      rfl
    rw [seesAt, hnone.1, List.drop_nil, hbehind]
    rfl
  | inr hplace =>
    obtain ⟨f, a, t, later, cs, hat, hl, -⟩ := hplace
    obtain ⟨gs, htexts, hgs⟩ := h
    obtain ⟨gs₁, g₁, g₂, gs₂, hsplit, hoff, ht, hcs⟩ := at_groups dir sink gs htexts _ f a t later cs hat
    have hrs' : rs = (gs₁.flatten ++ g₁) ++ (g₂ ++ gs₂.flatten) := by
      rw [← hgs, hsplit, List.flatten_append, List.flatten_cons]
      simp only [List.append_assoc]
    obtain ⟨-, hbehind⟩ := records_split_unique before behind _ _ (hrs.symm.trans hrs') hoff
    have hrest := hat.rest
    rw [hcs] at hrest
    rw [hat.seesAt_eq dir _ _ (newFileChain_holds dir sink)
      (newFileChain_total dir sink) _ f a t later cs hl, List.map_append, placed_texts, ht,
      scanTokens_records, sees_records dir _ later gs₂ hrest, hbehind, List.map_append]

include h in
/-- A forward page from between two records: it takes what it takes of `mid`, keeps the page greedy, and
leaves the cursor behind `mid`; an empty page leaves it where it was. -/
theorem Stores.readForward_records (lower : Bytes → Bytes) (filter : Filter) (count budget : ℕ)
    (hcount : 1 ≤ count) (before behind : List Record) (hrs : rs = before ++ behind) :
    let o := (recordsText before).length
    let page := (newFileChain (fun _ => dir) sink).readForward (fun _ => dir) lower budget o count filter
    let wanted := fun qs => kept (filter.matches lower) (located o qs)
    ∃ mid rest, behind = mid ++ rest ∧ page.entries = wanted mid ∧
      page.entries = greedy weight count budget (wanted behind) ∧
      page.lines = page.entries.map Prod.snd ∧ page.offsets = page.entries.map Prod.fst ∧
      page.nextOffset = o + (recordsText mid).length := by
  intro o page wanted
  have hin := h.inFront dir sink rs (filter.matches lower) before behind hrs
  obtain ⟨hentries, hls, hos, hmove⟩ := readForward_spec (filter.matches lower) count budget dir _
    (chain_plain dir sink (h.lines_plain dir sink rs)) _ (newFileChain_holds dir sink)
    (newFileChain_total dir sink) lower filter rfl
    hcount o _ hin
  by_cases hnone : wanted behind = []
  · have hempty : page.entries = [] := by
      rw [hentries, greedy_eq_nil weight count budget hcount]
      exact hnone
    obtain ⟨left, -, -, -, -, hstay, -⟩ := readForward_tokens (filter.matches lower) count budget dir
      (newFileChain (fun _ => dir) sink) lower filter rfl hcount o
    refine ⟨[], behind, rfl, hempty, hentries, hls, hos, ?_⟩
    exact hstay hempty
  · obtain ⟨hnext, hlt, -⟩ := hmove hnone
    have hplace : ∃ before' behind', rs = before' ++ behind' ∧ page.nextOffset = (recordsText before').length ∧
        kept (filter.matches lower) (located page.nextOffset behind') =
          (wanted behind).drop page.entries.length := by
      cases hnext with
      | inl hnil =>
        exfalso
        cases hin with
        | inl h0 => exact hnone h0.2
        | inr h0 =>
          obtain ⟨f, a, t, later, cs, h1, -⟩ := h0
          obtain ⟨pre, bs, hfiles, -, -⟩ := h1.files
          rw [hnil.1] at hfiles
          exact absurd hfiles (by simp)
      | inr hplace =>
        obtain ⟨f, a, t, later, cs, hat, -, hahead⟩ := hplace
        obtain ⟨before', behind', hrs', hlen, hkept⟩ :=
          h.at_split dir sink rs (filter.matches lower) _ f a t later cs hat
        exact ⟨before', behind', hrs', hlen, by rw [← hkept, ← hahead, hentries]⟩
    obtain ⟨before', behind', hrs', hlen, hkept⟩ := hplace
    -- the cursor has moved, so `before'` goes on behind `before`
    have hmid : ∃ mid, before' = before ++ mid ∧ behind = mid ++ behind' := by
      cases List.append_eq_append_iff.mp (hrs.symm.trans hrs') with
      | inl hu =>
        obtain ⟨u, hb, hbe⟩ := hu
        exact ⟨u, hb, hbe⟩
      | inr hu =>
        obtain ⟨u, hb, -⟩ := hu
        have hshort := congrArg (fun qs => (recordsText qs).length) hb
        simp only [recordsText_append, List.length_append] at hshort
        have hlt' : (recordsText before).length < page.nextOffset := hlt
        omega
    obtain ⟨mid, hb, hbe⟩ := hmid
    have hoff : page.nextOffset = o + (recordsText mid).length := by
      rw [hlen, hb, recordsText_append, List.length_append]
    refine ⟨mid, behind', hbe, ?_, hentries, hls, hos, hoff⟩
    have hsplit : wanted behind = wanted mid ++
        kept (filter.matches lower) (located page.nextOffset behind') := by
      simp only [wanted]
      rw [hbe, located_append, kept_append, hoff]
    have hpage := greedy_append_drop weight count budget (wanted behind)
    rw [← hentries, ← hkept, hsplit] at hpage
    exact List.append_cancel_right hpage

theorem located_plain (o : ℕ) (qs : List Record) : ∀ p ∈ located o qs, Plain p.2 := by
  intro p hp
  have hmem : p.2 ∈ (located o qs).map Prod.snd := List.mem_map_of_mem hp
  rw [located_texts] at hmem
  obtain ⟨r, -, hr⟩ := List.mem_map.mp hmem
  rw [← hr]
  exact r.plain

/-- What holds of the text of every record holds of the lines kept. -/
theorem kept_texts_of (parses : Bytes → Bool) (keeps : Bytes → Bool) (o : ℕ) (rs : List Record)
    (h : ∀ r ∈ rs, parses r.text = true) :
    ∀ p ∈ kept keeps (located o rs), parses p.2 = true := by
  intro p hp
  have htext : p.2 ∈ (located o rs).map Prod.snd := List.mem_map_of_mem (List.mem_filter.mp hp).1
  rw [located_texts] at htext
  obtain ⟨r, hr, hrp⟩ := List.mem_map.mp htext
  rw [← hrp]
  exact h r hr

include h in
theorem Stores.filled_lines : filled (linesOf 0 (chainTexts dir sink)) = located 0 rs :=
  (h.kept_lines dir sink rs fun _ => true).trans (filled_located 0 rs)

include h in
/-- A backward page from between two records. -/
theorem Stores.readBackward_records (lower : Bytes → Bytes) (filter : Filter) (count budget : ℕ) (since : ℤ)
    (before behind : List Record) (hrs : rs = before ++ behind) :
    (newFileChain (fun _ => dir) sink).readBackward (fun _ => dir) lower budget
    (recordsText before).length count filter since =
      pageOf (recordsText before).length (greedy weight count budget
        ((kept (filter.matches lower) (located 0 before)).filter fun p =>
          decide (since < 0 ∨ since ≤ (p.1 : ℤ))).reverse).reverse := by
  have hfilled := h.filled_lines dir sink rs
  have hstart : LineStart (recordsText before).length (chainTexts dir sink) := by
    cases behind with
    | nil =>
      have htotal := h.total dir sink rs
      rw [newFileChain_total, hrs, List.append_nil] at htotal
      rw [← htotal]
      exact lineStart_end _
    | cons r behind =>
      have hmem : (0 + (recordsText before).length, r.text) ∈ filled (linesOf 0 (chainTexts dir sink)) := by
        rw [hfilled, hrs, located_append, located_cons]
        exact List.mem_append_right _ List.mem_cons_self
      have hline := lineStart_of_mem 0 _ _ ((mem_filled _ _).mp hmem).1
      rwa [Nat.sub_zero, Nat.zero_add] at hline
  have hcut : filled (linesOf 0 (cutAt (recordsText before).length (chainTexts dir sink))) =
      located 0 before := by
    rw [filled_cutAt 0 _ _ hstart, hfilled, hrs, located_append, List.filter_append]
    have hfront : (located 0 before).filter (fun p => decide (p.1 < 0 + (recordsText before).length)) =
        located 0 before := by
      apply List.filter_eq_self.mpr
      intro p hp
      have := located_bounds 0 before p hp
      exact decide_eq_true (by omega)
    have hback : (located (0 + (recordsText before).length) behind).filter
        (fun p => decide (p.1 < 0 + (recordsText before).length)) = [] := by
      apply List.filter_eq_nil_iff.mpr
      intro p hp
      have := located_bounds _ behind p hp
      simp only [decide_eq_true_eq]
      omega
    rw [hfront, hback, List.append_nil]
  have hplain : ∀ p ∈ filled (linesOf 0 (cutAt (recordsText before).length (chainTexts dir sink))),
      Plain p.2 := by
    rw [hcut]
    exact located_plain 0 before
  have hkept : kept (filter.matches lower)
      (linesOf 0 (cutAt (recordsText before).length (chainTexts dir sink))) =
        kept (filter.matches lower) (located 0 before) := by
    rw [kept_eq_filled, hcut, kept_eq_filled, filled_located]
  rw [FileChain.readBackward, readBackwardBy_chain lower dir sink filter count budget backwardChunkSize
    (by decide) (by decide)]
  unfold naiveBackward
  simp only
  rw [wantedBackward_plain _ since _ hplain, hkept]

/-! ## Reading from any place -/

/-- A record or the end of one, at its place, when the first record stands at `o`. -/
def Within (o : ℕ) (rs : List Record) (p : ℕ × Bytes) : Prop :=
  ∃ before r behind cut, rs = before ++ r :: behind ∧ cut ≤ r.text.length ∧
    p = (o + (recordsText before).length + cut, r.text.drop cut)

theorem Within.front (o : ℕ) (qs rs : List Record) (p : ℕ × Bytes) (hp : Within o qs p) :
    Within o (qs ++ rs) p := by
  obtain ⟨before, r, behind, cut, hqs, hcut, hp⟩ := hp
  exact ⟨before, r, behind ++ rs, cut, by rw [hqs, List.append_assoc, List.cons_append], hcut, hp⟩

theorem Within.behind (o : ℕ) (qs rs : List Record) (p : ℕ × Bytes)
    (hp : Within (o + (recordsText qs).length) rs p) :
    Within o (qs ++ rs) p := by
  obtain ⟨before, r, behind, cut, hrs, hcut, hp⟩ := hp
  refine ⟨qs ++ before, r, behind, cut, by rw [hrs, List.append_assoc], hcut, ?_⟩
  rw [hp, recordsText_append, List.length_append]
  congr 1
  omega

theorem located_within (o : ℕ) (rs : List Record) : ∀ p ∈ located o rs, Within o rs p := by
  induction rs generalizing o with
  | nil => exact fun p hp => absurd hp List.not_mem_nil
  | cons r rs ih =>
    intro p hp
    cases List.mem_cons.mp hp with
    | inl hp => exact ⟨[], r, rs, 0, rfl, Nat.zero_le _, hp⟩
    | inr hp =>
      have hlen : r.text.length + 1 = (recordsText [r]).length := by
        rw [recordsText_cons, List.length_append]
        rfl
      rw [hlen] at hp
      exact Within.behind o [r] rs p (ih _ p hp)

/-- The scanner counts the records of a text where they stand. -/
theorem placed_located (fileEnd o : ℕ) (rs : List Record) (hend : o + (recordsText rs).length ≤ fileEnd) :
    placed fileEnd o (rs.map Record.text) = located o rs := by
  induction rs generalizing o with
  | nil => rfl
  | cons r rs ih =>
    rw [recordsText_cons, List.length_append, List.length_cons] at hend
    have hstep : step fileEnd o r.text = o + (r.text.length + 1) := Nat.min_eq_left (by omega)
    rw [List.map_cons, placed, hstep, ih _ (by omega), located_cons]

/-- A text of records from some place on begins with the end of a record. -/
theorem recordsText_drop (rs : List Record) (k : ℕ) (hk : k < (recordsText rs).length) :
    ∃ before r behind cut, rs = before ++ r :: behind ∧ cut ≤ r.text.length ∧
    k = (recordsText before).length + cut ∧
      (recordsText rs).drop k = r.text.drop cut ++ lf :: recordsText behind := by
  induction rs generalizing k with
  | nil => exact absurd hk (Nat.not_lt_zero k)
  | cons r rs ih =>
    by_cases hfirst : k ≤ r.text.length
    · refine ⟨[], r, rs, k, rfl, hfirst, (Nat.zero_add k).symm, ?_⟩
      rw [recordsText_cons, List.drop_append_of_le_length hfirst]
    · rw [recordsText_cons, List.length_append, List.length_cons] at hk
      obtain ⟨m, hm⟩ : ∃ m, k = r.text.length + (m + 1) := ⟨k - r.text.length - 1, by omega⟩
      obtain ⟨before, q, behind, cut, hrs, hcut, hplace, hdrop⟩ := ih m (by omega)
      refine ⟨r :: before, q, behind, cut, by rw [hrs, List.cons_append], hcut, ?_, ?_⟩
      · rw [recordsText_cons, List.length_append, List.length_cons]
        omega
      · rw [recordsText_cons, hm, List.drop_append, List.drop_of_length_le (Nat.le_add_right _ _),
          Nat.add_sub_cancel_left, List.nil_append, List.drop_succ_cons, hdrop]

/-- The end of a record is a line as the reader takes it. -/
theorem Record.drop_plain (r : Record) (cut : ℕ) :
    lf ∉ r.text.drop cut ∧ (r.text.drop cut).length < maxLineBytes ∧
      dropCR (r.text.drop cut) = r.text.drop cut := by
  refine ⟨fun hm => r.oneLine (List.mem_of_mem_drop hm), ?_, if_neg fun hlast => r.plain.2 ?_⟩
  · have hshort := r.plain.1
    rw [List.length_drop]
    omega
  · rw [← List.take_append_drop cut r.text, List.getLast?_append, hlast, Option.some_or]

/-- The tokens of one file of records, from any place in it. -/
theorem file_within (f : ChainFile) (rs : List Record) (hcontent : dir f.path = some (recordsText rs))
    (hsize : f.size = (recordsText rs).length) (phys : ℕ) :
    ∀ p ∈ placed (f.start + f.size) (f.start + phys) (fileTokens dir f phys), Within f.start rs p := by
  have hwindow : window (recordsText rs) f phys = (recordsText rs).drop phys := by
    unfold window
    rw [hsize, ← List.length_drop, List.take_length]
  unfold fileTokens
  rw [hcontent]
  simp only [hwindow]
  by_cases hphys : phys < (recordsText rs).length
  · obtain ⟨before, r, behind, cut, hrs, hcut, hplace, hdrop⟩ := recordsText_drop rs phys hphys
    obtain ⟨hline, hshort, hplain⟩ := r.drop_plain cut
    have hend : f.size = (recordsText before).length + (r.text.length + 1 + (recordsText behind).length) := by
      rw [hsize, hrs, recordsText_append, recordsText_cons, List.length_append, List.length_append,
        List.length_cons]
      omega
    have hlen := List.length_drop (i := cut) (l := r.text)
    have hstep : step (f.start + f.size) (f.start + phys) (r.text.drop cut) =
        f.start + (recordsText (before ++ [r])).length := by
      rw [recordsText_append, recordsText_cons, List.length_append, List.length_append, List.length_cons]
      refine (Nat.min_eq_left ?_).trans ?_
      · omega
      · change _ = f.start + (_ + (r.text.length + (0 + 1)))
        omega
    rw [hdrop, scanTokens_terminated _ _ hline, if_pos hshort, hplain, scanTokens_records, placed, hstep,
      placed_located]
    · intro p hp
      cases List.mem_cons.mp hp with
      | inl hp => exact ⟨before, r, behind, cut, hrs, hcut, by rw [hp, hplace, Nat.add_assoc]⟩
      | inr hp =>
        rw [hrs, ← List.singleton_append, ← List.append_assoc]
        exact Within.behind f.start _ behind p (located_within _ behind p hp)
    · rw [hend, recordsText_append, recordsText_cons, List.length_append, List.length_append, List.length_cons]
      change f.start + (_ + (r.text.length + (0 + 1))) + _ ≤ _
      omega
  · rw [List.drop_of_length_le (Nat.le_of_not_lt hphys)]
    exact fun p hp => absurd hp List.not_mem_nil

/-- What a forward read of files of records sees, from any place in the first of them. -/
theorem sees_within (o : ℕ) (files : List ChainFile) (gs : List (List Record))
    (hholds : Holds dir o files (gs.map recordsText)) (phys : ℕ) :
    ∀ p ∈ sees dir files phys, Within o gs.flatten p := by
  induction gs generalizing o files phys with
  | nil =>
    cases hholds
    exact fun p hp => absurd hp List.not_mem_nil
  | cons g gs ih =>
    cases hholds with
    | cons _ f fs _ _ start content size nonempty tail =>
      intro p hp
      rw [sees] at hp
      rw [List.flatten_cons]
      cases List.mem_append.mp hp with
      | inl hp => exact Within.front o g _ p (start ▸ file_within dir f g content size phys p hp)
      | inr hp => exact Within.behind o g _ p (ih _ fs tail 0 p hp)

include h in
/-- Whatever a forward read sees, from any offset, is a record or the end of one, at its place. -/
theorem Stores.seesAt_within (o : ℕ) : ∀ p ∈ seesAt dir (newFileChain (fun _ => dir) sink) o,
    Within 0 rs p := by
  intro p hp
  have hholds := newFileChain_holds dir sink
  obtain ⟨gs, htexts, hgs⟩ := h
  rw [htexts] at hholds
  have hsplit := List.take_append_drop ((newFileChain (fun _ => dir) sink).fileAt o).1
    (newFileChain (fun _ => dir) sink).files
  rw [seesAt] at hp
  cases hfiles : (newFileChain (fun _ => dir) sink).files.drop
    ((newFileChain (fun _ => dir) sink).fileAt o).1 with
  | nil =>
    rw [hfiles] at hp
    exact absurd hp List.not_mem_nil
  | cons f later =>
    rw [hfiles] at hp hsplit
    rw [← hsplit] at hholds
    obtain ⟨bs, c, cs, htext, -, hstart, hcontent, hsize, hne, hlater⟩ := hholds.file_text dir 0 _ f later _
    obtain ⟨gs₁, gs₂, hgs', hbs, hrest⟩ := List.map_eq_append_iff.mp htext
    have hfile : Holds dir f.start (f :: later) (gs₂.map recordsText) := by
      rw [hrest]
      exact .cons _ f later c cs rfl hcontent hsize hne (hsize ▸ hlater)
    rw [← hgs, hgs', List.flatten_append]
    refine Within.behind 0 gs₁.flatten _ p ?_
    rw [← recordsText_flatten, hbs, ← hstart]
    exact sees_within dir f.start _ gs₂ hfile _ p hp

end Chain

end Minilog.Viewer
