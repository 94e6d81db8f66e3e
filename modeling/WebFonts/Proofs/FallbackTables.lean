import Mathlib.Data.List.Perm.Basic
import WebFonts.Settings

/-!
# Fallback tables whose entries come in any order

A table of fallbacks is a map, so its entries come in no particular order. They are put in the order
of the keywords that their keys are read as. Keys that differ only in case are read as one keyword;
sorting keeps these in the order in which they came, and the last of them is the one that counts.
Main results:

* `readFallbacks_eq`, `configure_eq`: what is read, and what is set, from one order of the entries;
* `read_alike_iff_determined`: all orders are read alike, and all are set alike, exactly if keys
  that are read as one keyword have the same fonts and at most one key cannot be read. Other tables
  are still accepted or refused alike, with the same entries, and alike for every keyword on which
  they agree.
-/

namespace WebFonts

/-! ### Reading keys -/

namespace GenericFamily

theorem keyword_injective {a b : GenericFamily} (h : a.keyword = b.keyword) : a = b := by
  have hread := ofKeyword?_keyword a
  rw [h, ofKeyword?_keyword] at hread
  exact (Option.some.inj hread).symm

/-- Words that differ only in case are read alike. -/
theorem ofKeyword?_congr {a b : String} (h : Text.lower a = Text.lower b) :
    ofKeyword? a = ofKeyword? b := by
  simp only [ofKeyword?, Text.sameIgnoringCase, h]

/-- A word is read as a generic family exactly if it is its keyword in some case. -/
theorem ofKeyword?_eq_some_iff {word : String} {generic : GenericFamily} :
    ofKeyword? word = some generic ↔ Text.lower word = Text.lower generic.keyword := by
  refine ⟨fun h => ?_, fun h => by rw [ofKeyword?_congr h, ofKeyword?_keyword]⟩
  have hsame : Text.sameIgnoringCase generic.keyword word = true := by
    simpa using List.find?_some h
  exact (Text.sameIgnoringCase_iff.mp hsame).symm

end GenericFamily

namespace Settings

/-- An entry of a table of fallbacks: a key with local fonts. -/
abbrev Entry := String × List String

/-- The entry with its key read, if that is a keyword. -/
def known? (entry : Entry) : Option (GenericFamily × List String) :=
  (GenericFamily.ofKeyword? entry.1).map fun generic => (generic, entry.2)

/-- Whether the key of an entry cannot be read. -/
def isUnknown (entry : Entry) : Bool :=
  (GenericFamily.ofKeyword? entry.1).isNone

/-- The fonts of the last entry whose key is read as the keyword of a generic family. -/
def lastFonts? (generic : GenericFamily) (entries : List Entry) : Option (List String) :=
  (((entries.filterMap known?).filter (·.1 = generic)).getLast?).map (·.2)

theorem known?_eq_some_iff {entry : Entry} {generic : GenericFamily} {fonts : List String} :
    known? entry = some (generic, fonts) ↔
      GenericFamily.ofKeyword? entry.1 = some generic ∧ entry.2 = fonts := by
  unfold known?
  cases GenericFamily.ofKeyword? entry.1 <;> simp

/-- The keys are read up to the first one that cannot be. -/
theorem mapM_readEntry (entries : List Entry) :
    entries.mapM readEntry =
      match entries.find? isUnknown with
      | some entry => .error (.unknownGeneric entry.1)
      | none => .ok (entries.filterMap known?) := by
  induction entries with
  | nil => rfl
  | cons entry rest ih =>
    rw [List.mapM_cons, ih, List.find?_cons, List.filterMap_cons, readEntry, isUnknown, known?]
    cases GenericFamily.ofKeyword? entry.1 with
    | none => rfl
    | some generic => cases rest.find? isUnknown <;> rfl

/-! ### Sorting by keyword -/

/-- The order of entries by keyword. -/
def byKeyword (a b : GenericFamily × List String) : Bool :=
  decide (a.1.keyword ≤ b.1.keyword)

theorem byKeyword_trans (a b c : GenericFamily × List String) (hab : byKeyword a b = true)
    (hbc : byKeyword b c = true) : byKeyword a c = true := by
  simp only [byKeyword, decide_eq_true_eq] at *
  exact String.le_trans hab hbc

theorem byKeyword_total (a b : GenericFamily × List String) :
    (byKeyword a b || byKeyword b a) = true := by
  simp only [byKeyword, Bool.or_eq_true, decide_eq_true_eq]
  exact String.le_total ..

/-- Two entries that can stand in either order have the same keyword. -/
theorem generic_eq_of_byKeyword {a b : GenericFamily × List String} (hab : byKeyword a b = true)
    (hba : byKeyword b a = true) : a.1 = b.1 := by
  simp only [byKeyword, decide_eq_true_eq] at *
  exact GenericFamily.keyword_injective (String.le_antisymm hab hba)

/-- Sorting keeps the entries of one keyword in the order in which they came. -/
theorem filter_mergeSort (generic : GenericFamily) (entries : List (GenericFamily × List String)) :
    (entries.mergeSort byKeyword).filter (·.1 = generic) =
      entries.filter (·.1 = generic) := by
  have hpairwise : (entries.filter (·.1 = generic)).Pairwise (byKeyword · ·) :=
    List.pairwise_of_forall_mem_list fun a ha b hb => by
      have hgeneric : a.1 = b.1 := by grind
      simp [byKeyword, hgeneric]
  have hsublist : (entries.filter (·.1 = generic)).Sublist
      ((entries.mergeSort byKeyword).filter (·.1 = generic)) := by
    simpa [List.filter_filter] using (List.sublist_mergeSort byKeyword_trans byKeyword_total
      hpairwise List.filter_sublist).filter (·.1 = generic)
  exact (hsublist.eq_of_length
    ((List.mergeSort_perm entries byKeyword).filter _).length_eq.symm).symm

/-- The result of reading one order of the entries. -/
theorem readFallbacks_eq (settings : Settings) :
    settings.readFallbacks =
      match settings.fallbacks.find? isUnknown with
      | some entry => .error (.unknownGeneric entry.1)
      | none => .ok ((settings.fallbacks.filterMap known?).mergeSort byKeyword) := by
  rw [readFallbacks, mapM_readEntry]
  cases settings.fallbacks.find? isUnknown <;> rfl

/-! ### Setting the fonts of a table -/

/-- Of several entries for a generic family the last one counts, and no other family is touched. -/
theorem setAll_eq (entries : List (GenericFamily × List String)) (table : FontTable) :
    table.setAll entries = { table with standIns := fun generic =>
      (((entries.filter (·.1 = generic)).getLast?).map (·.2)).getD (table.standIns generic) } := by
  induction entries generalizing table with
  | nil => rfl
  | cons entry rest ih =>
    rw [FontTable.setAll, List.foldl_cons]
    refine (ih _).trans ?_
    simp only [FontTable.setStandIns, FontTable.mk.injEq, true_and]
    funext generic
    by_cases h : entry.1 = generic
    · subst h
      cases hlast : (rest.filter (·.1 = entry.1)).getLast? <;> simp [List.getLast?_cons, hlast]
    · have hne : ¬ generic = entry.1 := fun heq => h heq.symm
      simp [h, hne]

/-- The result of setting the entries in one order. -/
theorem configure_eq (settings : Settings) (table : FontTable) :
    settings.configure table =
      match settings.fallbacks.find? isUnknown with
      | some entry => .error (.unknownGeneric entry.1)
      | none => .ok { table with standIns := fun generic =>
          (lastFonts? generic settings.fallbacks).getD (table.standIns generic) } := by
  rw [configure, readFallbacks_eq]
  cases settings.fallbacks.find? isUnknown with
  | some entry => rfl
  | none =>
    show Except.ok (table.setAll _) = _
    rw [setAll_eq]
    simp only [filter_mergeSort, lastFonts?]

/-! ### Several orders of one table -/

variable {entries : List Entry} {first second : Settings}

/-- All entries for a generic family have the same fonts. -/
def Agree (entries : List Entry) (generic : GenericFamily) : Prop :=
  ∀ a ∈ entries, ∀ b ∈ entries, GenericFamily.ofKeyword? a.1 = some generic →
    GenericFamily.ofKeyword? b.1 = some generic → a.2 = b.2

/-- The entries of a table say what it means in any order: there is one key to blame if some cannot
be read, and the entries for each generic family agree if all can be. -/
structure Determined (entries : List Entry) : Prop where
  blamed : ∀ a ∈ entries, ∀ b ∈ entries, isUnknown a = true → isUnknown b = true → a.1 = b.1
  agree : (∀ entry ∈ entries, isUnknown entry = false) → ∀ generic, Agree entries generic

/-- What two orders of one table have in common. -/
structure AlikeButForTies (entries : List Entry) (table : FontTable) (first second : Settings) :
    Prop where
  /-- Both are refused, or none. -/
  refused : (∃ fault, first.readFallbacks = .error fault) ↔
    ∃ fault, second.readFallbacks = .error fault
  /-- A refusal names a key of the table that cannot be read. -/
  blamed : ∀ fault, first.readFallbacks = .error fault →
    ∃ entry ∈ entries, isUnknown entry = true ∧ fault = .unknownGeneric entry.1
  /-- The same entries are read, with the keywords in the same order. -/
  read : ∀ {read read' : List (GenericFamily × List String)},
    first.readFallbacks = .ok read → second.readFallbacks = .ok read' →
    read.Perm read' ∧ read.map Prod.fst = read'.map Prod.fst
  /-- The fonts are set alike for every generic family whose entries agree. -/
  set : ∀ {filled filled' : FontTable},
    first.configure table = .ok filled → second.configure table = .ok filled' →
    filled.families = filled'.families ∧
      ∀ generic, Agree entries generic → filled.standIns generic = filled'.standIns generic

theorem find?_isUnknown_eq_none_of_perm {other : List Entry} (hperm : other.Perm entries) :
    other.find? isUnknown = none ↔ entries.find? isUnknown = none := by
  simp only [List.find?_eq_none, hperm.mem_iff]

/-- Where entries agree, the fonts of the last one are those of any order. -/
theorem lastFonts?_of_perm {other : List Entry} {generic : GenericFamily}
    (hperm : other.Perm entries) (hagree : Agree entries generic) :
    lastFonts? generic other = lastFonts? generic entries := by
  have hfilter : ((other.filterMap known?).filter (·.1 = generic)).Perm
      ((entries.filterMap known?).filter (·.1 = generic)) := (hperm.filterMap known?).filter _
  have hfonts : ∀ x ∈ (entries.filterMap known?).filter (·.1 = generic),
      ∀ y ∈ (entries.filterMap known?).filter (·.1 = generic), x = y := by
    rintro ⟨g, fonts⟩ hx ⟨g', fonts'⟩ hy
    simp only [List.mem_filter, List.mem_filterMap, known?_eq_some_iff, decide_eq_true_eq] at hx hy
    obtain ⟨⟨a, ha, hag, rfl⟩, rfl⟩ := hx
    obtain ⟨⟨b, hb, hbg, rfl⟩, rfl⟩ := hy
    rw [hagree a ha b hb hag hbg]
  have hany (read : List (GenericFamily × List String)) : read.Pairwise fun _ _ => True :=
    List.pairwise_of_forall fun _ _ => trivial
  have heq := hfilter.eq_of_pairwise
    (fun x y hx hy _ _ => hfonts x (hfilter.mem_iff.mp hx) y hy) (hany _) (hany _)
  rw [lastFonts?, lastFonts?, heq]

/-- An entry that comes last is the one that counts. -/
theorem lastFonts?_append {entry : Entry} {generic : GenericFamily} (front : List Entry)
    (h : GenericFamily.ofKeyword? entry.1 = some generic) :
    lastFonts? generic (front ++ [entry]) = some entry.2 := by
  simp [lastFonts?, List.filterMap_append, known?, h]

/-- A determined table is read alike in any order. -/
theorem Determined.readFallbacks_eq (h : Determined entries)
    (hfirst : first.fallbacks.Perm entries) (hsecond : second.fallbacks.Perm entries) :
    first.readFallbacks = second.readFallbacks := by
  have hnone := (find?_isUnknown_eq_none_of_perm hfirst).trans
    (find?_isUnknown_eq_none_of_perm hsecond).symm
  rw [Settings.readFallbacks_eq, Settings.readFallbacks_eq]
  cases ha : first.fallbacks.find? isUnknown with
  | some a =>
    cases hb : second.fallbacks.find? isUnknown with
    | none => simp [hnone.mpr hb] at ha
    | some b =>
      have hkeys : a.1 = b.1 := h.blamed a (hfirst.mem_iff.mp (List.mem_of_find?_eq_some ha)) b
        (hsecond.mem_iff.mp (List.mem_of_find?_eq_some hb)) (List.find?_some ha)
        (List.find?_some hb)
      simp only [hkeys]
  | none =>
    rw [hnone.mp ha]
    have hall : ∀ entry ∈ entries, isUnknown entry = false := fun entry hmem => by
      simpa using List.find?_eq_none.mp ha entry (hfirst.mem_iff.mpr hmem)
    have hperm : (first.fallbacks.filterMap known?).Perm (second.fallbacks.filterMap known?) :=
      (hfirst.trans hsecond.symm).filterMap known?
    refine congrArg Except.ok (List.Perm.eq_of_pairwise ?_
      (List.pairwise_mergeSort byKeyword_trans byKeyword_total _)
      (List.pairwise_mergeSort byKeyword_trans byKeyword_total _)
      ((List.mergeSort_perm ..).trans (hperm.trans (List.mergeSort_perm ..).symm)))
    rintro ⟨g, fonts⟩ ⟨g', fonts'⟩ hx hy hxy hyx
    obtain rfl : g = g' := generic_eq_of_byKeyword hxy hyx
    simp only [List.mem_mergeSort, List.mem_filterMap, known?_eq_some_iff] at hx hy
    obtain ⟨a, ha, hag, rfl⟩ := hx
    obtain ⟨b, hb, hbg, rfl⟩ := hy
    rw [h.agree hall g a (hfirst.mem_iff.mp ha) b (hsecond.mem_iff.mp hb) hag hbg]

/-- A table that is set alike in any order is determined: of two keys that cannot be read each could
be blamed by coming first, and of two entries for a generic family each could count by coming
last. -/
theorem determined_of_configure (table : FontTable)
    (h : ∀ first second : Settings, first.fallbacks.Perm entries → second.fallbacks.Perm entries →
      first.configure table = second.configure table) : Determined entries where
  blamed a ha b hb hua hub := by
    have heq := h { fallbacks := a :: entries.erase a } { fallbacks := b :: entries.erase b }
      (List.perm_cons_erase ha).symm (List.perm_cons_erase hb).symm
    simpa [configure_eq, hua, hub] using heq
  agree hall generic a ha b hb hag hbg := by
    have hlast {entry : Entry} (hmem : entry ∈ entries) :
        (entries.erase entry ++ [entry]).Perm entries :=
      (List.perm_append_singleton ..).trans (List.perm_cons_erase hmem).symm
    have hnone {entry : Entry} (hmem : entry ∈ entries) :
        (entries.erase entry ++ [entry]).find? isUnknown = none :=
      (find?_isUnknown_eq_none_of_perm (hlast hmem)).mpr
        (List.find?_eq_none.mpr fun entry hmem => by simp [hall entry hmem])
    have heq := h { fallbacks := entries.erase a ++ [a] } { fallbacks := entries.erase b ++ [b] }
      (hlast ha) (hlast hb)
    simp only [configure_eq, hnone ha, hnone hb, Except.ok.injEq, FontTable.mk.injEq,
      true_and] at heq
    simpa [lastFonts?_append _ hag, lastFonts?_append _ hbg] using congrFun heq generic

theorem readFallbacks_eq_error_iff {settings : Settings} :
    (∃ fault, settings.readFallbacks = .error fault) ↔
      settings.fallbacks.find? isUnknown ≠ none := by
  rw [readFallbacks_eq]
  cases settings.fallbacks.find? isUnknown <;> simp

theorem readFallbacks_eq_ok_iff {settings : Settings}
    {read : List (GenericFamily × List String)} :
    settings.readFallbacks = .ok read ↔ settings.fallbacks.find? isUnknown = none ∧
      read = (settings.fallbacks.filterMap known?).mergeSort byKeyword := by
  rw [readFallbacks_eq]
  cases settings.fallbacks.find? isUnknown <;> simp [eq_comm]

/-- Settings that a text decodes to are refused for the first key that cannot be read. -/
theorem ofText?_eq {text : String} {settings : Settings}
    (hdecode : Json.Decoder.ofText decode text = .ok settings) :
    ofText? text = match settings.fallbacks.find? isUnknown with
      | some entry => .error (.unknownGeneric entry.1)
      | none => .ok settings := by
  rw [ofText?, hdecode]
  show (settings.readFallbacks >>= fun _ => .ok settings) = _
  rw [readFallbacks_eq]
  cases settings.fallbacks.find? isUnknown <;> rfl

theorem ofText?_eq_ok_iff {text : String} {settings : Settings} :
    ofText? text = .ok settings ↔ Json.Decoder.ofText decode text = .ok settings ∧
      settings.fallbacks.find? isUnknown = none := by
  cases hdecode : Json.Decoder.ofText decode text with
  | error fault =>
    have hrefused : ofText? text = .error (.json fault) := by
      rw [ofText?, hdecode]
      rfl
    simp [hrefused]
  | ok decoded =>
    rw [ofText?_eq hdecode, Except.ok.injEq]
    cases hfind : decoded.fallbacks.find? isUnknown with
    | some entry =>
      refine ⟨fun h => by simp at h, fun h => ?_⟩
      rw [h.1, h.2] at hfind
      cases hfind
    | none =>
      refine ⟨fun h => ?_, fun h => congrArg Except.ok h.1⟩
      cases h
      exact ⟨rfl, hfind⟩

theorem configure_eq_ok_iff {settings : Settings} {table filled : FontTable} :
    settings.configure table = .ok filled ↔ settings.fallbacks.find? isUnknown = none ∧
      filled = { table with standIns := fun generic =>
        (lastFonts? generic settings.fallbacks).getD (table.standIns generic) } := by
  rw [configure_eq]
  cases settings.fallbacks.find? isUnknown <;> simp [eq_comm]

/-- Sorted entries have their keywords in an order that does not depend on ties. -/
theorem map_fst_mergeSort_of_perm {read read' : List (GenericFamily × List String)}
    (hperm : read.Perm read') :
    (read.mergeSort byKeyword).map Prod.fst = (read'.mergeSort byKeyword).map Prod.fst := by
  have hsorted (read : List (GenericFamily × List String)) :
      ((read.mergeSort byKeyword).map Prod.fst).Pairwise (·.keyword ≤ ·.keyword) :=
    List.pairwise_map.mpr
      ((List.pairwise_mergeSort byKeyword_trans byKeyword_total read).imp of_decide_eq_true)
  refine List.Perm.eq_of_pairwise (fun a b _ _ hab hba => ?_) (hsorted read) (hsorted read') ?_
  · exact GenericFamily.keyword_injective (String.le_antisymm hab hba)
  · exact ((List.mergeSort_perm ..).trans (hperm.trans (List.mergeSort_perm ..).symm)).map _

/-- Two orders of any table are read and set alike but for entries of one keyword that disagree. -/
theorem alikeButForTies_of_perm (table : FontTable) (hfirst : first.fallbacks.Perm entries)
    (hsecond : second.fallbacks.Perm entries) : AlikeButForTies entries table first second where
  refused := by
    rw [readFallbacks_eq_error_iff, readFallbacks_eq_error_iff, ne_eq, ne_eq,
      find?_isUnknown_eq_none_of_perm hfirst, find?_isUnknown_eq_none_of_perm hsecond]
  blamed fault hfault := by
    rw [readFallbacks_eq] at hfault
    cases hfind : first.fallbacks.find? isUnknown with
    | none => simp [hfind] at hfault
    | some entry =>
      obtain rfl : SettingsFault.unknownGeneric entry.1 = fault := by simpa [hfind] using hfault
      exact ⟨entry, hfirst.mem_iff.mp (List.mem_of_find?_eq_some hfind), List.find?_some hfind, rfl⟩
  read hread hread' := by
    obtain ⟨-, rfl⟩ := readFallbacks_eq_ok_iff.mp hread
    obtain ⟨-, rfl⟩ := readFallbacks_eq_ok_iff.mp hread'
    have hperm := (hfirst.trans hsecond.symm).filterMap known?
    exact ⟨(List.mergeSort_perm ..).trans (hperm.trans (List.mergeSort_perm ..).symm),
      map_fst_mergeSort_of_perm hperm⟩
  set hfilled hfilled' := by
    obtain ⟨-, rfl⟩ := configure_eq_ok_iff.mp hfilled
    obtain ⟨-, rfl⟩ := configure_eq_ok_iff.mp hfilled'
    refine ⟨rfl, fun generic hagree => ?_⟩
    simp only [lastFonts?_of_perm hfirst hagree, lastFonts?_of_perm hsecond hagree]

/-- All orders of a table of fallbacks are read alike exactly if the table is determined, and all
are set alike exactly then. Two orders of any table are both refused, for a key of the table that
cannot be read, or both accepted; then the same entries are read, with the keywords in the same
order, and the fonts are set alike for every generic family whose entries agree. -/
theorem read_alike_iff_determined (entries : List Entry) (table : FontTable) :
    ((∀ first second : Settings, first.fallbacks.Perm entries → second.fallbacks.Perm entries →
        first.readFallbacks = second.readFallbacks) ↔ Determined entries) ∧
    ((∀ first second : Settings, first.fallbacks.Perm entries → second.fallbacks.Perm entries →
        first.configure table = second.configure table) ↔ Determined entries) ∧
    ∀ first second : Settings, first.fallbacks.Perm entries → second.fallbacks.Perm entries →
      AlikeButForTies entries table first second := by
  have hconfigure {first second : Settings} (h : first.readFallbacks = second.readFallbacks) :
      first.configure table = second.configure table := by
    rw [configure, configure, h]
  refine ⟨⟨fun h => ?_, fun h first second hfirst hsecond => ?_⟩,
    ⟨determined_of_configure table, fun h first second hfirst hsecond => ?_⟩,
    fun first second hfirst hsecond => alikeButForTies_of_perm table hfirst hsecond⟩
  · exact determined_of_configure table fun first second hfirst hsecond =>
      hconfigure (h first second hfirst hsecond)
  · exact h.readFallbacks_eq hfirst hsecond
  · exact hconfigure (h.readFallbacks_eq hfirst hsecond)

/-- Two keys of a table that are both read as `serif`. -/
theorem ofKeyword?_of_tied_serif :
    GenericFamily.ofKeyword? "serif" = some .serif ∧
      GenericFamily.ofKeyword? "Serif" = some .serif :=
  have hlower : Text.lower "Serif" = Text.lower GenericFamily.serif.keyword :=
    String.toList_inj.mp (by simp only [Text.lower, String.toList_map]; decide)
  ⟨GenericFamily.ofKeyword?_keyword .serif,
    (GenericFamily.ofKeyword?_congr hlower).trans (GenericFamily.ofKeyword?_keyword .serif)⟩

/-- Two keys are read as one keyword with different fonts. Two orders of the table are alike but for
that keyword. -/
theorem read_alike_of_tied_serif :
    let entries : List Entry := [("monospace", ["C"]), ("serif", ["A"]), ("Serif", ["B"])]
    let first : Settings := { fallbacks := entries }
    let second : Settings := { fallbacks := entries.reverse }
    first.fallbacks.Perm entries ∧ second.fallbacks.Perm entries ∧
      AlikeButForTies entries .empty first second ∧ ¬ Determined entries := by
  obtain ⟨hserif, hSerif⟩ := ofKeyword?_of_tied_serif
  have hmonospace : GenericFamily.ofKeyword? "monospace" = some .monospace :=
    GenericFamily.ofKeyword?_keyword .monospace
  intro entries first second
  have hfirst : first.fallbacks.Perm entries := List.Perm.refl _
  have hsecond : second.fallbacks.Perm entries := List.reverse_perm _
  refine ⟨hfirst, hsecond,
    (read_alike_iff_determined entries .empty).2.2 first second hfirst hsecond, fun h => ?_⟩
  have hknown : ∀ entry ∈ entries, isUnknown entry = false := by
    simp [entries, isUnknown, hserif, hSerif, hmonospace]
  have hfonts := h.agree hknown .serif ("serif", ["A"]) (by simp [entries]) ("Serif", ["B"])
    (by simp [entries]) hserif hSerif
  simp at hfonts

/-- Keys that differ only in case are different keys of a table, and the order in which they come
decides what is read and which of them counts. -/
theorem order_decides_tied_serif :
    let first : Settings := { fallbacks := [("serif", ["A"]), ("Serif", ["B"])] }
    let second : Settings := { fallbacks := [("Serif", ["B"]), ("serif", ["A"])] }
    (first.fallbacks.map Prod.fst).Nodup ∧ second.fallbacks.Perm first.fallbacks ∧
      first.readFallbacks ≠ second.readFallbacks ∧
      ∃ filled filled' : FontTable, first.configure .empty = .ok filled ∧
        second.configure .empty = .ok filled' ∧
        filled.standIns .serif = ["B"] ∧ filled'.standIns .serif = ["A"] := by
  intro first second
  obtain ⟨hserif, hSerif⟩ := ofKeyword?_of_tied_serif
  have hfirst : first.fallbacks.find? isUnknown = none := by
    simp [first, isUnknown, hserif, hSerif]
  have hsecond : second.fallbacks.find? isUnknown = none := by
    simp [second, isUnknown, hserif, hSerif]
  have hB : lastFonts? .serif first.fallbacks = some ["B"] :=
    lastFonts?_append [("serif", ["A"])] hSerif
  have hA : lastFonts? .serif second.fallbacks = some ["A"] :=
    lastFonts?_append [("Serif", ["B"])] hserif
  have hread : first.readFallbacks ≠ second.readFallbacks := fun heq => by
    have hconfigure : first.configure .empty = second.configure .empty := by
      rw [configure, configure, heq]
    rw [configure_eq_ok_iff.mpr ⟨hfirst, rfl⟩, configure_eq_ok_iff.mpr ⟨hsecond, rfl⟩,
      Except.ok.injEq, FontTable.mk.injEq] at hconfigure
    have hfonts := congrFun hconfigure.2 .serif
    rw [hA, hB] at hfonts
    simp at hfonts
  refine ⟨by simp [first], List.Perm.swap .., hread, _, _, configure_eq_ok_iff.mpr ⟨hfirst, rfl⟩,
    configure_eq_ok_iff.mpr ⟨hsecond, rfl⟩, ?_, ?_⟩
  · simp only [hB, Option.getD_some]
  · simp only [hA, Option.getD_some]

end Settings

end WebFonts
