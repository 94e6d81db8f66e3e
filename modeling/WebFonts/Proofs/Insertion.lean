import WebFonts.Proofs.Quoting
import WebFonts.Proofs.Shifting
import WebFonts.Proofs.SpliceOffsets
import WebFonts.Proofs.Spliced

/-!
# Names inserted into a declaration

When the names of fallback families are inserted behind the first family of a declaration, the
declaration is read as before, with these names in its value. `readAll_splice` says this of a value
and `Declaration.ofStatement?_splice` of a declaration.

The value is divided behind the token that ends the first family (`Component.Reading.split`). The
part in front of it is read as before since the token keeps its place (`Reading.recut`), the token
itself since a comma follows it, and the part behind it since nothing changes there. No `!important`
is lost or gained (`cutImportant_insert`).
-/

namespace WebFonts.Css

open Text (size trimEnd)
open Cursor (Reads)
open Rule (quote)

/-! ### Text that can stand anywhere in a statement -/

/-- Lexemes that end no statement and close whatever they open. -/
structure Flows (lexemes : List Lexeme) : Prop where
  lexes : ∀ rest, Lexes lexemes rest
  passes : ∀ depth, Passes Sheet.stops depth lexemes
  balanced : ∀ depth, depthBehind depth lexemes = depth

/-- A character without a meaning of its own in a statement. -/
def Ordinary (c : Char) : Prop :=
  c ∉ ['\\', '/', '"', '\'', '{', '}', ';', '(', ')', '[', ']']

instance : DecidablePred Ordinary :=
  fun c => inferInstanceAs (Decidable (c ∉ _))

theorem ordinary_of_all {text : List Char} (h : text.all (fun c => decide (Ordinary c)) = true) :
    ∀ c ∈ text, Ordinary c :=
  fun c hmem => of_decide_eq_true (List.all_eq_true.mp h c hmem)

namespace Flows

theorem nil : Flows [] :=
  ⟨fun _ => trivial, fun _ => trivial, fun _ => rfl⟩

theorem append {front back : List Lexeme} (hfront : Flows front) (hback : Flows back) :
    Flows (front ++ back) := by
  refine ⟨fun rest => lexes_append.mpr ⟨hfront.lexes _, hback.lexes rest⟩, fun depth => ?_,
    fun depth => ?_⟩
  · rw [passes_append, hfront.balanced]
    exact ⟨hfront.passes depth, hback.passes depth⟩
  · rw [depthBehind_append, hfront.balanced, hback.balanced]

theorem quoted {text : String} (hbreak : '\n' ∉ text.toList) :
    Flows [.quoted (quote text).toList] :=
  ⟨fun rest => ⟨before_quote hbreak rest, trivial⟩, fun _ => ⟨nofun, trivial⟩, fun _ => rfl⟩

theorem plain {c : Char} (h : Ordinary c) : Flows [.plain c] := by
  simp only [Ordinary, List.mem_cons, List.not_mem_nil, or_false, not_or] at h
  obtain ⟨hescape, hslash, hquote, happos, hopen, hclose, hsemi, hparen, hparen', hbracket,
    hbracket'⟩ := h
  have hisQuote : isQuote c = false := by simp [isQuote, hquote, happos]
  refine ⟨fun rest => ⟨.plain hescape hisQuote fun heq => absurd heq hslash, trivial⟩,
    fun depth => ⟨?_, trivial⟩, fun depth => ?_⟩
  · simp [Lexeme.isOneOf, Sheet.stops, hopen, hsemi, hclose]
  · simp [depthBehind, Lexeme.depthAfter, hparen, hparen', hbracket, hbracket']

theorem of_ordinary {text : List Char} (h : ∀ c ∈ text, Ordinary c) :
    Flows (text.map Lexeme.plain) := by
  induction text with
  | nil => exact nil
  | cons c text ih =>
    exact (plain (h c (List.mem_cons_self ..))).append
      (ih fun d hmem => h d (List.mem_cons_of_mem c hmem))

theorem parenthesized {lexemes : List Lexeme} (h : Flows lexemes) :
    Flows ([.plain '('] ++ lexemes ++ [.plain ')']) := by
  refine ⟨fun rest => ?_, fun depth => ?_, fun depth => ?_⟩
  · rw [lexes_append, lexes_append]
    exact ⟨⟨⟨.plain (by decide) rfl nofun, trivial⟩, h.lexes _⟩,
      .plain (by decide) rfl nofun, trivial⟩
  · rw [passes_append, passes_append]
    exact ⟨⟨⟨nofun, trivial⟩, h.passes _⟩, nofun, trivial⟩
  · rw [depthBehind_append, depthBehind_append, h.balanced]
    rfl

end Flows

theorem spell_plain (text : List Char) : spell (text.map Lexeme.plain) = text := by
  induction text with
  | nil => rfl
  | cons c text ih =>
    rw [List.map_cons, spell_cons, ih]
    rfl

/-! ### The text of a list of names -/

/-- The lexemes that continue a list of families by some names. -/
def listing (names : List String) : List Lexeme :=
  names.flatMap fun name => [.plain ',', .plain ' ', .quoted (quote name).toList]

theorem listing_cons (name : String) (names : List String) :
    listing (name :: names) =
      [.plain ',', .plain ' ', .quoted (quote name).toList] ++ listing names :=
  List.flatMap_cons

theorem spell_listing_cons (name : String) (names : List String) :
    spell (listing (name :: names)) =
      ',' :: ' ' :: ((quote name).toList ++ spell (listing names)) := by
  simp only [listing_cons, spell_cons, Lexeme.text, List.cons_append, List.nil_append]

/-- The text that is inserted for some names. -/
theorem spell_listing (names : List String) :
    spell (listing names) = (Draft.continuation names).toList := by
  induction names with
  | nil => rfl
  | cons name names ih =>
    have hcons : Draft.continuation (name :: names) =
        ", " ++ quote name ++ Draft.continuation names := by
      rw [Draft.continuation, List.map_cons, String.join_cons]
      rfl
    rw [spell_listing_cons, ih, hcons, String.toList_append, String.toList_append]
    rfl

/-- Names end no statement. -/
theorem flows_listing {names : List String} (hbreak : ∀ name ∈ names, '\n' ∉ name.toList) :
    Flows (listing names) := by
  induction names with
  | nil => exact .nil
  | cons name names ih =>
    rw [listing_cons]
    exact (((Flows.plain (by decide)).append (.plain (by decide))).append
      (.quoted (hbreak name (List.mem_cons_self ..)))).append
        (ih fun other hmem => hbreak other (List.mem_cons_of_mem name hmem))

/-- The text of some names ends with a string. -/
theorem listing_eq_append {names : List String} (hne : names ≠ []) :
    ∃ front name, listing names = front ++ [.quoted (quote name).toList] := by
  obtain ⟨others, name, rfl⟩ := List.eq_nil_or_concat names |>.resolve_left hne
  refine ⟨listing others ++ [.plain ',', .plain ' '], name, ?_⟩
  rw [listing, List.concat_eq_append, List.flatMap_append, listing, List.append_assoc]
  rfl

theorem spell_listing_eq_append {names : List String} (hne : names ≠ []) :
    ∃ text, spell (listing names) = text ++ ['"'] := by
  obtain ⟨front, name, heq⟩ := listing_eq_append hne
  refine ⟨spell front ++ '"' :: name.toList.flatMap Rule.escape, ?_⟩
  rw [heq, spell_append, spell_cons, spell_nil, List.append_nil, Lexeme.text, toList_quote,
    List.append_assoc]

namespace Component

variable {inFunction : Bool} {cur next last : Cursor} {components : List Component}

/-- A comma and a blank in front of a value are read as a comma. -/
theorem Reading.comma_blank {offset : Nat} {text : List Char}
    (h : Reading inFunction ⟨offset + size [','] + size [' '], text⟩ components last) :
    ∃ span, Reading inFunction ⟨offset, ',' :: ' ' :: text⟩ (.token span .comma :: components)
      last := by
  have hcomma : (Cursor.mk offset (',' :: ' ' :: text)).piece? =
      .ok (some (.token .comma, ⟨offset + size [','], ' ' :: text⟩)) := rfl
  have hseparator : (Cursor.mk (offset + size [',']) (' ' :: text)).separator? =
      .ok (some ⟨offset + size [','] + size [' '], text⟩) :=
    Cursor.separator?_of_reads (.blank (c := ' ') (by decide)) ⟨rfl, rfl⟩
  exact ⟨_, .token (atToken_of_ne (by decide) (by decide)) hcomma (.separator hseparator h)⟩

/-- The text of some names is read as these names. -/
theorem reading_listing {names : List String} (hbreak : ∀ name ∈ names, '\n' ∉ name.toList)
    (offset : Nat) (rest : List Char) :
    ∃ components, bareAll components = listed names ∧
      Reading inFunction ⟨offset, spell (listing names) ++ rest⟩ components
        ⟨offset + size (spell (listing names)), rest⟩ := by
  induction names generalizing offset with
  | nil => exact ⟨[], rfl, .nil _ _⟩
  | cons name names ih =>
    have hname := hbreak name (List.mem_cons_self ..)
    obtain ⟨others, hbare, hothers⟩ := ih
      (fun other hmem => hbreak other (List.mem_cons_of_mem name hmem))
      (offset + size [','] + size [' '] + size (quote name).toList)
    have hstring : (Cursor.mk (offset + size [','] + size [' '])
        ((quote name).toList ++ (spell (listing names) ++ rest))).piece? =
          .ok (some (.token (.string name),
            ⟨offset + size [','] + size [' '] + size (quote name).toList,
              spell (listing names) ++ rest⟩)) :=
      Cursor.piece?_quote hname rfl
    have hsize : offset + size (spell (listing (name :: names))) =
        offset + size [','] + size [' '] + size (quote name).toList +
          size (spell (listing names)) := by
      rw [spell_listing_cons]
      simp only [Text.size_cons, Text.size_append, Text.size_nil]
      omega
    rw [hsize, spell_listing_cons, List.cons_append, List.cons_append, List.append_assoc]
    obtain ⟨span, hreading⟩ := Reading.comma_blank (.token (atToken_quote ..) hstring hothers)
    refine ⟨.token span .comma :: .token _ (.string name) :: others, ?_, hreading⟩
    rw [bareAll, bareAll, hbare]
    rfl

/-! ### Names inserted into a value -/

/-- No two components end at the same offset. -/
theorem Reading.stop_ne {front back : List Component} {span : Span} {leaf : Token}
    (h : Reading inFunction cur (front ++ .token span leaf :: back) last)
    (hleaf : leaf ≠ .delim ')') :
    ∀ component ∈ front ++ back, component.span.stop ≠ span.stop := by
  obtain ⟨begun, ended, hfront, -, hpiece, rfl, hback⟩ := h.split hleaf
  obtain ⟨taken, htaken, hne⟩ := Cursor.reads_piece? hpiece
  have := htaken.offset_lt hne
  intro component hmem
  dsimp only
  rcases List.mem_append.mp hmem with hmem | hmem
  · have := hfront.within component hmem
    omega
  · have := hback.within component hmem
    omega

/-- The token that ends a family name is a text of its own. -/
theorem firm_of_namesFamily {leaf : Token} {taken : List Char}
    (h : cur.piece? = .ok (some (.token leaf, next))) (hreads : Reads cur taken next)
    (hleaf : NamedFamilies.NamesFamily leaf) : Firm taken ∧ Whole taken := by
  have hnone : cur.url? = none := by
    refine Cursor.url?_none_of_piece? h fun address heq => ?_
    obtain ⟨text, rfl | rfl⟩ := hleaf <;> cases heq
  obtain ⟨text, hleaf⟩ := hleaf
  have hwhole : Whole taken := by
    rcases Cursor.whole_of_piece? h hreads hnone with hwhole | ⟨heq, -⟩ | ⟨heq, -⟩
    · exact hwhole
    · rcases hleaf with rfl | rfl <;> cases heq
    · rcases hleaf with rfl | rfl <;> cases heq
  obtain ⟨piece, hpiece, hne⟩ := Cursor.reads_piece? h
  obtain rfl := hreads.unique hpiece
  exact ⟨hwhole.firm hne, hwhole⟩

/-- Components that end with the token of a family name are read in front of a comma as before. -/
theorem Reading.before_comma {front others : List Component} {begun ended : Cursor} {leaf : Token}
    {before taken tail : List Char} (hfront : Reading inFunction cur front begun)
    (hbefore : Reads cur before begun) (htoken : AtToken begun.rest)
    (hpiece : begun.piece? = .ok (some (.token leaf, ended))) (htaken : Reads begun taken ended)
    (hfirm : Firm taken) {offset : Nat}
    (hothers : Reading inFunction ⟨offset + size before + size taken, ',' :: tail⟩ others last)
    (span : Span) :
    ∃ components, Reading inFunction ⟨offset, before ++ (taken ++ ',' :: tail)⟩ components last ∧
      bareAll components = bareAll (front ++ [.token span leaf]) ++ bareAll others := by
  -- what follows the token begins with a comma, so that the token and all in front of it stay
  have hbehind (text : List Char) :
      Alike (text ++ begun.rest) (text ++ (taken ++ ',' :: tail)) := by
    rw [htaken.rest_eq, ← List.append_assoc, ← List.append_assoc]
    exact .of_firm hfirm.append _ (.comma tail)
  obtain ⟨before', front', hreads, hbare, -, hreading⟩ := hfront.recut (.behind hbehind) offset
  obtain rfl := hbefore.unique hreads
  have hpiece' := piece?_token_recut hpiece htaken (.parted ended.rest (.comma tail))
    (by simpa using hbehind []) (offset + size before)
  have htoken' : AtToken (taken ++ ',' :: tail) := by
    rw [htaken.rest_eq] at htoken
    exact htoken.alike (.parted ended.rest (.comma tail)) hfirm.ne_nil
  refine ⟨_, hreading.append (.token htoken' hpiece' hothers), ?_⟩
  rw [bareAll_append, bareAll_append, hbare, bareAll]
  simp [bareAll, bare]

/-- Names inserted behind a token stand in the value behind that token. -/
theorem Reading.insert {front back : List Component} {span : Span} {leaf : Token}
    {names : List String} (h : Reading false cur (front ++ .token span leaf :: back) last)
    (hleaf : NamedFamilies.NamesFamily leaf)
    (hurl : anyHasUrl (front ++ .token span leaf :: back) = false)
    (hbreak : ∀ name ∈ names, '\n' ∉ name.toList) (hne : names ≠ []) :
    ∃ before after, Reads cur (before ++ after) last ∧ span.stop = cur.offset + size before ∧
      Whole before ∧ before ≠ [] ∧
      ∀ offset, ∃ components last',
        Reading false ⟨offset, before ++ (spell (listing names) ++ (after ++ last.rest))⟩ components
          last' ∧ last'.rest = last.rest ∧
        bareAll components =
          bareAll (front ++ [.token span leaf]) ++ listed names ++ bareAll back := by
  obtain ⟨begun, ended, hfront, htoken, hpiece, rfl, hback⟩ :=
    h.split (by obtain ⟨text, rfl | rfl⟩ := hleaf <;> nofun)
  rw [anyHasUrl_append, Bool.or_eq_false_iff] at hurl
  obtain ⟨taken, htaken, -⟩ := Cursor.reads_piece? hpiece
  obtain ⟨hfirm, hwhole⟩ := firm_of_namesFamily hpiece htaken hleaf
  obtain ⟨lexemes, hlexemes, hlexes⟩ := hfront.scans hurl.1
  obtain ⟨after, hafter⟩ := hback.reads
  have hwholeFront : Whole (spell lexemes ++ taken) := by
    obtain ⟨others, rfl, hothers⟩ := hwhole
    refine ⟨lexemes ++ others, spell_append .., fun rest => lexes_append.mpr ⟨?_, hothers rest⟩⟩
    refine hlexes.congr ?_
    rw [htaken.rest_eq, List.head?_append_of_ne_nil _ hfirm.ne_nil,
      List.head?_append_of_ne_nil _ hfirm.ne_nil]
  refine ⟨spell lexemes ++ taken, after, ?_, ?_, hwholeFront, by simp [hfirm.ne_nil],
    fun offset => ?_⟩
  · exact (hlexemes.trans htaken).trans hafter
  · exact (hlexemes.trans htaken).offset_eq
  · obtain ⟨name, others, rfl⟩ := List.exists_cons_of_ne_nil hne
    obtain ⟨tail, htail⟩ : ∃ tail, spell (listing (name :: others)) ++ (after ++ last.rest) =
        ',' :: tail := by
      rw [spell_listing_cons]
      exact ⟨_, rfl⟩
    obtain ⟨inserted, hbareInserted, hinserted⟩ := reading_listing hbreak
      (offset + size (spell lexemes) + size taken) (after ++ last.rest)
    obtain ⟨after', back', hreadsBack, hbareBack, -, hreadingBack⟩ :=
      hback.recut (.behind (.refl _))
        (offset + size (spell lexemes) + size taken + size (spell (listing (name :: others))))
    obtain rfl := hafter.unique hreadsBack
    have hothers := hinserted.append hreadingBack
    rw [htail] at hothers
    obtain ⟨components, hreading, hbare⟩ :=
      hfront.before_comma hlexemes htoken hpiece htaken hfirm hothers
        ⟨begun.offset, ended.offset⟩
    rw [← htail, ← List.append_assoc] at hreading
    refine ⟨components, _, hreading, rfl, ?_⟩
    rw [hbare, bareAll_append inserted, hbareInserted, hbareBack, List.append_assoc]

/-- A value is read with names in it if they are inserted behind its first family. -/
theorem readAll_splice {names : Nat → List String} {property : String} {offset stop : Nat}
    {text : List Char} (h : readAll ⟨offset, text⟩ = .ok components)
    (hurl : anyHasUrl components = false)
    (hstop : (NamedFamilies.ofValue property components).firstStop = some stop)
    (hbreak : ∀ name ∈ names stop, '\n' ∉ name.toList) (hne : names stop ≠ [])
    (honly : ∀ other, offset < other → other ≤ offset + size text → other ≠ stop →
      names other = []) :
    ∃ before after, text = before ++ after ∧ stop = offset + size before ∧ Whole before ∧
      before ≠ [] ∧ ∀ offset', ∃ components',
        readAll ⟨offset', before ++ (spell (listing (names stop)) ++ after)⟩ = .ok components' ∧
          bareAll components' = splice names components := by
  obtain ⟨last, hreading, hend⟩ := readAll_eq_ok_iff.mp h
  obtain ⟨span, leaf, hmem, hleaf, rfl⟩ := NamedFamilies.exists_of_firstStop hstop
  obtain ⟨front, back, rfl⟩ := List.append_of_mem hmem
  have hapart := hreading.stop_ne (by obtain ⟨text, rfl | rfl⟩ := hleaf <;> nofun)
  obtain ⟨before, after, hreads, hspan, hwhole, hbefore, hinsert⟩ :=
    hreading.insert hleaf hurl hbreak hne
  have htext := hreads.rest_eq
  have hlast := hreads.offset_eq
  rw [hend, List.append_nil] at htext
  dsimp only at htext hlast hspan
  have hnone : ∀ component ∈ front ++ back, names component.span.stop = [] := by
    intro component hmem
    have hwithin := hreading.within component (by grind)
    rw [hlast, ← htext] at hwithin
    exact honly _ hwithin.1 hwithin.2 (hapart component hmem)
  refine ⟨before, after, htext, hspan, hwhole, hbefore, fun offset' => ?_⟩
  obtain ⟨components', last', hreading', hend', hbare⟩ := hinsert offset'
  rw [hend, List.append_nil] at hreading'
  refine ⟨components', readAll_eq_ok_iff.mpr ⟨last', hreading', hend'.trans hend⟩, ?_⟩
  exact hbare.trans (splice_of_one hnone).symm

mutual

theorem bare_shift (distance : Nat) (component : Component) :
    (component.shift distance).bare = component.bare := by
  match component with
  | .token span leaf => rfl
  | .function span name arguments => rw [shift, bare, bare, bareAll_shiftAll]

theorem bareAll_shiftAll (distance : Nat) (components : List Component) :
    bareAll (shiftAll distance components) = bareAll components := by
  match components with
  | [] => rfl
  | component :: others => rw [shiftAll, bareAll, bareAll, bare_shift, bareAll_shiftAll]

end

/-- A value that is read can be read at every offset. -/
theorem readAll_move {offset : Nat} {text : List Char} (h : readAll ⟨offset, text⟩ = .ok components)
    (offset' : Nat) :
    ∃ components', readAll ⟨offset', text⟩ = .ok components' ∧
      bareAll components' = bareAll components := by
  rw [readAll_at] at h ⊢
  cases hread : readAll (.start text) with
  | error fault => rw [hread] at h; cases h
  | ok found =>
    rw [hread] at h
    cases h
    refine ⟨_, rfl, ?_⟩
    rw [← shiftAll_eq_map, ← shiftAll_eq_map, bareAll_shiftAll, bareAll_shiftAll]

end Component

/-! ### Names inserted into a declaration -/

namespace Declaration

variable {names : Nat → List String} {property : String} {offset : Nat} {text : List Char}

theorem bare_shift (distance : Nat) (declaration : Declaration) :
    (declaration.shift distance).bare = declaration.bare := by
  obtain ⟨property, value, important, span⟩ := declaration
  cases value with
  | raw text => rfl
  | components parts =>
    have hparts :
        ((Value.components parts).shift distance).bare = (Value.components parts).bare := by
      rw [Value.shift, ← Component.shiftAll_eq_map, Value.bare_components, Value.bare_components,
        Component.bareAll_shiftAll]
    unfold Value.bare at hparts
    rw [shift, bare, splice, bare, splice, hparts]

/-- A property whose value is divided into components has no other values. -/
theorem readValue_of_components {cur cur' : Cursor} {text' : List Char}
    {components components' : List Component}
    (h : readValue property cur text = .ok (.components components))
    (hread : Component.readAll ⟨cur'.offset, trimEnd text'⟩ = .ok components') :
    readValue property cur' text' = .ok (.components components') := by
  unfold readValue at h ⊢
  dsimp only at h ⊢
  split at h
  · cases h
  · rename_i hcustom
    rw [if_neg hcustom, hread]
    rfl

/-- Blanks are trimmed behind an insertion as they were before it. -/
theorem trimEnd_insert {before after inserted rest : List Char}
    (hquote : ∃ text, inserted = text ++ ['"']) (h : trimEnd (before ++ rest) = before ++ after) :
    trimEnd (before ++ inserted ++ rest) = before ++ inserted ++ after := by
  obtain ⟨text, rfl⟩ := hquote
  rw [trimEnd_append] at h ⊢
  by_cases hblank : trimEnd rest = []
  · rw [if_pos hblank] at h ⊢
    obtain ⟨blanks, hblanks, -⟩ := Text.trimEnd_append before
    rw [h, List.append_assoc, List.append_right_eq_self] at hblanks
    obtain ⟨rfl, -⟩ := List.append_eq_nil_iff.mp hblanks
    rw [List.append_nil]
    exact trimEnd_of_getLast? (c := '"') (by simp) (by decide)
  · rw [if_neg hblank] at h ⊢
    rw [List.append_cancel_left h]

/-- The mark behind a value is found again behind names, since their text ends with a string. -/
theorem cutImportant_listing {names : List String} {before rest kept : List Char}
    (hbefore : Whole before) (hbreak : ∀ name ∈ names, '\n' ∉ name.toList) (hne : names ≠ [])
    (h : (cutImportant (before ++ rest)).1 = before ++ kept) :
    cutImportant (before ++ (spell (listing names) ++ rest)) =
      (before ++ (spell (listing names) ++ kept), (cutImportant (before ++ rest)).2) := by
  obtain ⟨lexemes, rfl, hlexes⟩ := hbefore
  obtain ⟨front, name, hlast⟩ := listing_eq_append hne
  obtain ⟨text, htext⟩ := spell_listing_eq_append hne
  have hend : EndsMeaningful (lexemes ++ listing names) := by
    refine ⟨lexemes ++ front, .quoted (quote name).toList, ?_, rfl⟩
    rw [hlast, List.append_assoc]
  have hinsert := cutImportant_insert (hlexes rest)
    (lexes_append.mpr ⟨hlexes _, (flows_listing hbreak).lexes rest⟩) hend htext (Prod.ext h rfl)
  rwa [spell_append, List.append_assoc, List.append_assoc] at hinsert

/-- The text behind the colon of a declaration is read with names in it if they are inserted behind
its first family. -/
theorem readValue_splice {components : List Component} {stop : Nat}
    (h : readValue property ⟨offset, text⟩ (cutImportant text).1 = .ok (.components components))
    (hurl : Component.anyHasUrl components = false)
    (hstop : (NamedFamilies.ofValue property components).firstStop = some stop)
    (hbreak : ∀ name ∈ names stop, '\n' ∉ name.toList) (hne : names stop ≠ [])
    (honly : ∀ other, offset < other → other ≤ offset + size text → other ≠ stop →
      names other = []) :
    ∃ before after, text = before ++ after ∧ stop = offset + size before ∧ Whole before ∧
      (cutImportant (before ++ (spell (listing (names stop)) ++ after))).2 =
        (cutImportant text).2 ∧
      ∀ offset', ∃ components',
        readValue property ⟨offset', before ++ (spell (listing (names stop)) ++ after)⟩
            (cutImportant (before ++ (spell (listing (names stop)) ++ after))).1 =
          .ok (.components components') ∧
        Component.bareAll components' = Component.splice names components := by
  obtain ⟨mark, hmark⟩ := cutImportant_append_eq text
  obtain ⟨blanks, hblanks, -⟩ := Text.trimEnd_append (cutImportant text).1
  have hsize : size (trimEnd (cutImportant text).1) ≤ size text := by
    have hkept := congrArg size hblanks
    have htext := congrArg size hmark
    rw [Text.size_append] at hkept htext
    omega
  obtain ⟨before, after, htrim, hoffset, hwhole, -, hinsert⟩ :=
    Component.readAll_splice (value_eq_components h) hurl hstop hbreak hne
      fun other hlt hle hother => honly other hlt (hle.trans (Nat.add_le_add_left hsize _)) hother
  have hkept : (cutImportant text).1 = before ++ (after ++ blanks) := by
    rw [← hblanks, htrim, List.append_assoc]
  have htext : text = before ++ (after ++ blanks ++ mark) := by
    rw [← hmark, hkept, List.append_assoc]
  have hcut := cutImportant_listing hwhole hbreak hne (htext ▸ hkept)
  refine ⟨before, after ++ blanks ++ mark, htext, hoffset, hwhole, ?_, fun offset' => ?_⟩
  · rw [hcut, ← htext]
  · obtain ⟨components', hread, hbare⟩ := hinsert offset'
    refine ⟨components', readValue_of_components h ?_, hbare⟩
    have htrim' := trimEnd_insert (spell_listing_eq_append hne) (hkept ▸ htrim)
    rw [List.append_assoc, List.append_assoc] at htrim'
    rw [hcut]
    dsimp only
    rw [htrim']
    exact hread

/-- A declaration is read with names in its value if they are inserted behind its first family. -/
theorem ofStatement?_splice {declaration : Declaration} {components : List Component} {stop : Nat}
    (h : ofStatement? ⟨offset, text⟩ = .ok declaration)
    (hcomponents : declaration.value = .components components)
    (hurl : Component.anyHasUrl components = false)
    (hstop : (NamedFamilies.ofValue declaration.property components).firstStop = some stop)
    (hbreak : ∀ name ∈ names stop, '\n' ∉ name.toList) (hne : names stop ≠ [])
    (honly : ∀ other, offset < other → other ≤ offset + size text → other ≠ stop →
      names other = []) :
    ∃ before after, text = before ++ after ∧ stop = offset + size before ∧ Whole before ∧
      2 ≤ before.length ∧ ∀ offset', ∃ declaration',
        ofStatement? ⟨offset', before ++ (spell (listing (names stop)) ++ after)⟩ =
            .ok declaration' ∧
          declaration'.bare = declaration.splice names := by
  obtain ⟨front, value, rfl, hfront, hvalue, himportant, -⟩ := exists_heading h
  rw [hcomponents] at hvalue
  have honly' : ∀ other, offset + size front < other → other ≤ offset + size front + size value →
      other ≠ stop → names other = [] := by
    intro other hlt hle hother
    refine honly other (by omega) ?_ hother
    rw [Text.size_append]
    omega
  obtain ⟨before, after, rfl, hoffset, hwhole, hmark, hsplice⟩ :=
    readValue_splice hvalue hurl hstop hbreak hne honly'
  refine ⟨front ++ before, after, (List.append_assoc ..).symm, ?_, hfront.whole.append hwhole, ?_,
    fun offset' => ?_⟩
  · rw [hoffset, Text.size_append, Nat.add_assoc]
  · have := hfront.two_le
    rw [List.length_append]
    omega
  · obtain ⟨components', hvalue', hbare⟩ := hsplice (offset' + size front)
    rw [List.append_assoc]
    refine ⟨_, ofStatement?_of_heading hfront hvalue', ?_⟩
    have hbare' := Value.bare_components components'
    unfold Value.bare at hbare'
    unfold bare splice
    rw [hcomponents, hmark, himportant, hbare', hbare]
    rfl

/-- The components of a declaration are read inside its statement. -/
theorem exists_reading {declaration : Declaration} {components : List Component}
    (h : ofStatement? ⟨offset, text⟩ = .ok declaration)
    (hcomponents : declaration.value = .components components) :
    ∃ begun last, Component.Reading false begun components last ∧ offset ≤ begun.offset ∧
      last.offset ≤ offset + size text := by
  obtain ⟨front, value, rfl, -, hvalue, -, -⟩ := exists_heading h
  rw [hcomponents] at hvalue
  obtain ⟨last, hreading, -⟩ := Component.readAll_eq_ok_iff.mp (value_eq_components hvalue)
  obtain ⟨mark, hmark⟩ := cutImportant_append_eq value
  obtain ⟨blanks, hblanks, -⟩ := Text.trimEnd_append (cutImportant value).1
  obtain ⟨taken, hreads⟩ := hreading.reads
  have hrest := hreads.rest_eq
  have hlast := hreads.offset_eq
  dsimp only at hrest hlast
  have hsize : size taken ≤ size value := by
    rw [← hmark, ← hblanks, hrest]
    simp only [Text.size_append]
    omega
  refine ⟨_, last, hreading, Nat.le_add_right .., ?_⟩
  rw [Text.size_append]
  omega

theorem stop_within {declaration : Declaration} {components : List Component}
    (h : ofStatement? ⟨offset, text⟩ = .ok declaration)
    (hcomponents : declaration.value = .components components) :
    ∀ component ∈ components,
      offset < component.span.stop ∧ component.span.stop ≤ offset + size text := by
  obtain ⟨begun, last, hreading, hbegun, hlast⟩ := exists_reading h hcomponents
  intro component hmem
  have := hreading.within component hmem
  omega

end Declaration

end WebFonts.Css
