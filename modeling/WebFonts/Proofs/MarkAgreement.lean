import WebFonts.Proofs.ExactUses
import WebFonts.Proofs.GeneratedRules
import WebFonts.Proofs.MarkedValues
import WebFonts.Proofs.Shifting

/-!
# The mark of a declaration and its tokens

`mark_agrees_with_tokens` compares two ways to take the mark off a declaration that is no custom
property. The value is cut as a text, by its lexemes, and what is left is read into components
(`Declaration.Written.exists_components`). Or the whole value is read into tokens, and the mark is
taken off as the last two of them (`Component.cutMark`).

Both agree for values without backslashes and addresses in which only those characters are blanks
that separate tokens. They differ where the cut goes through a token: an escaped exclamation mark
that belongs to an identifier is taken for the mark (`mark_cut_from_escape`).
-/

namespace WebFonts.Css

open Component (EndsLone anyHasUrl cutMark CleanCut)
open Text (size isBlank sameIgnoringCase trimEnd)

/-! ### Declarations in a source -/

/-- A declaration is read from a source: behind some text stand its heading, which ends in the
colon, and its value, up to the end of the statement. Unlike `Declaration.ReadFrom`, this says where
the statement ends. -/
structure Declaration.Written (declaration : Declaration) (source : String)
    (before heading value : List Char) (stop : Cursor) : Prop where
  source_eq : source.toList = before ++ (heading ++ value ++ stop.rest)
  heads : Heading declaration.property heading
  ends : (Cursor.mk (size before) (heading ++ value ++ stop.rest)).upTo Sheet.stops 0 =
    .ok (heading ++ value, stop)
  ne_brace : stop.rest.head? ≠ some '{'
  read : ofStatement? ⟨size before, heading ++ value⟩ = .ok declaration

namespace Sheet

variable {source : String} {place : Place} {cur next last : Cursor} {nodes : List Node}
  {declaration : Declaration}

theorem Leaf.exists_written (h : Leaf cur place (.declaration declaration) next)
    (hin : cur.In source) :
    ∃ before heading value stop, declaration.Written source before heading value stop := by
  cases h with
  | @declaration _ statement _ hstatement hbrace hat hread =>
    obtain ⟨before, hrest, hoffset⟩ := hin
    obtain ⟨heading, value, rfl, hheading, -⟩ := Declaration.exists_heading hread
    have hreads := Cursor.reads_upTo hstatement
    obtain ⟨offset, rest⟩ := cur
    obtain rfl : offset = size before := by simpa [Cursor.start] using hoffset
    obtain rfl : rest = heading ++ value ++ next.rest := hreads.rest_eq
    exact ⟨before, heading, value, next, hrest, hheading, hstatement, hbrace, hread⟩

/-- Every declaration that is read is written in the source. -/
theorem Reading.exists_written (h : Reading place cur nodes last) (hin : cur.In source)
    {parent : Option Node} (hmem : declaration ∈ declarationsIn parent nodes) :
    ∃ before heading value stop, declaration.Written source before heading value stop := by
  induction h generalizing parent with
  | nil => cases hmem
  | separator h others ih =>
    obtain ⟨separator, hfirst, -⟩ := Cursor.reads_separator? h
    exact ih (hin.reads hfirst) hmem
  | semicolon h others ih => exact ih (hin.reads h) hmem
  | mark h others ih =>
    obtain ⟨mark, hfirst⟩ := reads_skipMark? h
    exact ih (hin.reads hfirst) hmem
  | leaf hbegins h others ih =>
    obtain ⟨text, hfirst⟩ := h.reads
    rw [declarationsIn_cons, List.mem_append] at hmem
    rcases hmem with hnode | hothers
    · cases h with
      | atRule | block | statement => cases hnode
      | declaration hstatement hbrace hat hread =>
        obtain rfl := List.mem_singleton.mp hnode
        exact (Leaf.declaration hstatement hbrace hat hread).exists_written hin
    · exact ih (hin.reads hfirst) hothers
  | block hplace hbegins h inner hclose others ihInner ih =>
    obtain ⟨text, hhead, hopening⟩ := h.reads
    obtain ⟨children, hinner⟩ := inner.reads
    have hinside := hin.reads (hhead.trans hopening)
    rw [declarationsIn_cons, declarations_node, List.mem_append] at hmem
    rcases hmem with hchild | hothers
    · exact ihInner hinside hchild
    · exact ih (hinside.reads (hinner.trans hclose)) hothers

/-- Every declaration that stands in a sheet is written in its source. -/
theorem exists_written (h : ofText? source = .ok nodes) {owner : Option Node}
    (hstands : declaration.StandsIn owner none nodes) :
    ∃ before heading value stop, declaration.Written source before heading value stop := by
  have hmem : declaration ∈ declarationsIn none nodes :=
    List.mem_filterMap.mpr ⟨_, mem_visitsIn_iff.mpr hstands, rfl⟩
  exact (reading_of_ofText? h).1.exists_written ⟨[], .refl _⟩ hmem

end Sheet

namespace Declaration.Written

variable {declaration : Declaration} {source : String} {before heading value : List Char}
  {stop : Cursor}

/-- The value of a declaration is a sequence of lexemes. -/
theorem exists_lexemes (h : declaration.Written source before heading value stop) :
    ∃ lexemes, spell lexemes = value ∧ Lexes lexemes [] := by
  obtain ⟨lexemes, hspell, hlexes, -⟩ := Cursor.passes_of_upTo h.ends
  obtain ⟨front, hfront, hlexesFront⟩ := h.heads.whole
  obtain ⟨tail, rfl, htail⟩ := hlexes.atEnd.split (hlexesFront _) (hfront.symm ▸ hspell.symm)
  exact ⟨tail, htail, (lexes_append.mp hlexes.atEnd).2⟩

/-- A declaration is what is read from its value. -/
theorem readValue_eq (h : declaration.Written source before heading value stop) :
    readValue declaration.property ⟨size before + size heading, value⟩ (cutImportant value).1 =
        .ok declaration.value ∧
      declaration.important = (cutImportant value).2 := by
  obtain ⟨named, colon, cur, hproperty, hskip, hcolon, hvalue, himportant, -⟩ :=
    ofStatement?_eq_ok h.read
  obtain ⟨named', colon', hproperty', hskip', hcolon'⟩ := h.heads.read (size before) value
  obtain ⟨-, rfl⟩ := Prod.mk.inj (Except.ok.inj (hproperty.symm.trans hproperty'))
  obtain rfl := Except.ok.inj (hskip.symm.trans hskip')
  rw [Sheet.char?_eq_some_iff.mpr hcolon] at hcolon'
  obtain rfl := Option.some.inj hcolon'
  exact ⟨hvalue, himportant⟩

/-- The components of a declaration that is not a custom property are read from its value without
the mark and the blanks at its end. -/
theorem exists_components (h : declaration.Written source before heading value stop)
    (hcustom : isCustomProperty declaration.property = false) :
    ∃ components, declaration.value = .components components ∧
      Component.readAll ⟨size before + size heading, trimEnd (cutImportant value).1⟩ =
        .ok components := by
  obtain ⟨hvalue, -⟩ := h.readValue_eq
  cases hfound : declaration.value with
  | components components => exact ⟨components, rfl, value_eq_components (hfound ▸ hvalue)⟩
  | raw raw =>
    obtain ⟨hraw, -⟩ := readValue_eq_raw (hfound ▸ hvalue)
    rw [hcustom] at hraw
    cases hraw

end Declaration.Written

/-! ### The cut and the tokens -/

/-- What is read and then evaluated was read. -/
theorem exists_of_map {α β : Type} {outcome : Except Fault α} {f : α → β} {value : β}
    (h : outcome.map f = .ok value) : ∃ result, outcome = .ok result ∧ f result = value := by
  cases outcome with
  | error fault => cases h
  | ok result => exact ⟨result, rfl, Except.ok.inj h⟩

/-- The components and the mark of a declaration agree with what is read from its value as a whole,
up to the end of its statement, exactly if what is cut off are separators, with the mark between
them, not behind a lone backslash, and no mark is overlooked. A mark is found if no address stands
in front of it and its keyword is written without escapes. So both agree wherever no backslash and
no address stands in the value and its blanks are separators. -/
theorem mark_agrees_with_tokens {source : String} {nodes : List Node}
    (hread : Sheet.ofText? source = .ok nodes) {declaration : Declaration} {owner : Option Node}
    (hstands : declaration.StandsIn owner none nodes)
    (hcustom : isCustomProperty declaration.property = false) :
    (∃ before heading value stop, declaration.Written source before heading value stop) ∧
    ∀ before heading value stop, declaration.Written source before heading value stop →
      ∃ components kept cut, declaration.value = .components components ∧
        kept = trimEnd (cutImportant value).1 ∧ value = kept ++ cut ∧
        ∀ tokens, (Component.ofText? (String.ofList value)).map
            (List.map (Component.shift (size (before ++ heading)))) = .ok tokens →
          ((components, declaration.important) = cutMark tokens ↔
            CleanCut declaration.important cut ∧ (EndsLone components → cut = []) ∧
              ((cutMark tokens).2 = true → declaration.important = true)) ∧
          (∀ front mark span word, tokens =
              front ++ [.token mark (.delim '!'), .token span (.ident word)] →
            sameIgnoringCase word "important" = true → anyHasUrl front = false →
            ∃ keyword, span.slice? source = some keyword ∧
              ('\\' ∉ keyword.toList → declaration.important = true)) ∧
          ('\\' ∉ value → (∀ c ∈ value, isBlank c = true → c.isWhitespace = true) →
            anyHasUrl tokens = false → (components, declaration.important) = cutMark tokens) := by
  refine ⟨Sheet.exists_written hread hstands, fun before heading value stop hwritten => ?_⟩
  obtain ⟨components, hvalue, hkept⟩ := hwritten.exists_components hcustom
  obtain ⟨-, himportant⟩ := hwritten.readValue_eq
  obtain ⟨blanks, hblanks, -⟩ := Text.trimEnd_append (cutImportant value).1
  obtain ⟨mark, hmark⟩ := cutImportant_append_eq value
  have happend : trimEnd (cutImportant value).1 ++ (blanks ++ mark) = value := by
    rw [← List.append_assoc, hblanks, hmark]
  refine ⟨components, _, blanks ++ mark, hvalue, rfl, happend.symm, fun tokens htokens => ?_⟩
  obtain ⟨read, hstart, htokens⟩ := exists_of_map htokens
  have hwhole : Component.readAll ⟨size before + size heading, value⟩ = .ok tokens := by
    rw [Component.ofText?, String.toList_ofList] at hstart
    rw [Component.readAll_at, hstart, ← Text.size_append, ← htokens]
    rfl
  refine ⟨?_, ?_, fun hescape hblank hurl => ?_⟩
  · rw [himportant, eq_comm]
    exact Component.cutMark_eq_iff hwritten.exists_lexemes happend hkept hwhole
  · rintro front mark span word rfl hword hurl
    obtain ⟨begun, keyword, behind, hsplit, rfl, hfound⟩ :=
      Component.important_of_mark hwhole hword hurl
    refine ⟨String.ofList keyword, ?_, ?_⟩
    · rw [← Text.size_append, ← Text.size_append]
      have hsource : source.toList =
          (before ++ heading ++ begun) ++ (keyword ++ (behind ++ stop.rest)) := by
        rw [hwritten.source_eq, hsplit]
        simp
      exact Span.slice?_append hsource
    · rw [String.toList_ofList, himportant]
      exact hfound
  · rw [himportant]
    exact (Component.cutMark_of_plain hwritten.exists_lexemes happend hkept hwhole hescape hblank
      hurl).symm

/-- A rule that sets a color. -/
def colored (value : List Char) : String :=
  String.ofList (['a', '\x7b'] ++ ("color:".toList ++ value ++ ['\x7d']))

theorem isCustomProperty_color : isCustomProperty "color" = false := by
  decide +kernel

/-- A rule that sets a color is read as one declaration. -/
theorem exists_colored {value : List Char} {components : List Component} {stop : Nat}
    (hends : (Cursor.mk 2 ("color:".toList ++ value ++ ['\x7d'])).upTo Sheet.stops 0 =
      .ok ("color:".toList ++ value, ⟨stop, ['\x7d']⟩))
    (hread : Component.readAll ⟨8, trimEnd (cutImportant value).1⟩ = .ok components) :
    ∃ (nodes : List Node) (declaration : Declaration) (owner : Option Node),
      Sheet.ofText? (colored value) = .ok nodes ∧
      declaration.StandsIn owner none nodes ∧ declaration.property = "color" ∧
      declaration.value = .components components ∧
      declaration.important = (cutImportant value).2 ∧
      declaration.Written (colored value) ['a', '\x7b'] "color:".toList value ⟨stop, ['\x7d']⟩ := by
  have hheads : Declaration.Heading "color" "color:".toList := Declaration.heading_word (by decide)
  have hvalue : Declaration.readValue "color" ⟨2 + size "color:".toList, value⟩
      (cutImportant value).1 = .ok (.components components) := by
    rw [Declaration.readValue, isCustomProperty_color]
    exact congrArg (Except.map Value.components) hread
  have hstatement := Declaration.ofStatement?_of_heading hheads hvalue
  generalize hdeclaration : Declaration.mk "color" (.components components) (cutImportant value).2
    ⟨2, 2 + size (trimEnd ("color:".toList ++ value))⟩ = declaration at hstatement
  have hbegins : Sheet.Begins .declarations ⟨2, "color:".toList ++ value ++ ['\x7d']⟩ :=
    .declarations (atToken_of_ne (by decide) (by decide)) (by decide) (by decide) 2
  have hnodes : Sheet.ofText? (colored value) =
      .ok [.rule "a" [.declaration declaration] ⟨0, stop + 1⟩] :=
    (Sheet.ofText?_ruleOf hbegins nofun hends).trans (congrArg _ hstatement)
  refine ⟨_, declaration, _, hnodes,
    .rule (List.mem_singleton_self _) (.here (List.mem_singleton_self _)), ?_⟩
  subst hdeclaration
  exact ⟨rfl, rfl, rfl, String.toList_ofList, hheads, hends, nofun, hstatement⟩

/-- A red color with a mark among comments. -/
def markedRed : List Char :=
  "red /* c */ ! /**/ important /* x */".toList

/-- The mark is found among comments. -/
theorem mark_agrees_with_tokens_of_comments :
    ∃ (nodes : List Node) (declaration : Declaration) (owner : Option Node),
      Sheet.ofText? (colored markedRed) = .ok nodes ∧ declaration.StandsIn owner none nodes ∧
      isCustomProperty declaration.property = false ∧ declaration.important = true ∧
      ∃ components tokens, declaration.value = .components components ∧
        (Component.ofText? (String.ofList markedRed)).map (List.map (Component.shift 8)) =
          .ok tokens ∧
        tokens.length = 3 ∧ (components, declaration.important) = cutMark tokens := by
  have hends : (Cursor.mk 2 ("color:".toList ++ markedRed ++ ['\x7d'])).upTo Sheet.stops 0 =
      .ok ("color:".toList ++ markedRed, ⟨44, ['\x7d']⟩) := by
    decide +kernel
  have hlength : (Component.readAll ⟨8, trimEnd (cutImportant markedRed).1⟩).map List.length =
      .ok 1 := by
    decide +kernel
  have hwhole : ((Component.ofText? (String.ofList markedRed)).map
      (List.map (Component.shift 8))).map (fun tokens => (tokens.length, anyHasUrl tokens)) =
        .ok (3, false) := by
    decide +kernel
  obtain ⟨components, hread, -⟩ := exists_of_map hlength
  obtain ⟨tokens, htokens, hfound⟩ := exists_of_map hwhole
  obtain ⟨hthree, hurl⟩ := Prod.mk.inj hfound
  obtain ⟨nodes, declaration, owner, hnodes, hstands, hproperty, hvalue, himportant, hwritten⟩ :=
    exists_colored hends hread
  have hcustom : isCustomProperty declaration.property = false :=
    hproperty ▸ isCustomProperty_color
  obtain ⟨components', kept, cut, hvalue', -, -, hagrees⟩ :=
    (mark_agrees_with_tokens hnodes hstands hcustom).2 _ _ _ _ hwritten
  obtain rfl : components = components' := Value.components.inj (hvalue.symm.trans hvalue')
  have hmarked : declaration.important = true := himportant.trans (by decide +kernel)
  have hescape : '\\' ∉ markedRed := by decide +kernel
  have hblank : ∀ c ∈ markedRed, isBlank c = true → c.isWhitespace = true := by
    have hall : markedRed.all (fun c => !isBlank c || c.isWhitespace) = true := by decide +kernel
    intro c hc hisBlank
    simpa [hisBlank] using List.all_eq_true.mp hall c hc
  exact ⟨nodes, declaration, owner, hnodes, hstands, hcustom, hmarked, components, tokens, hvalue,
    htokens, hthree, (hagrees tokens htokens).2.2 hescape hblank hurl⟩

/-- An escaped exclamation mark belongs to an identifier, but it is cut off as a mark. -/
theorem mark_cut_from_escape :
    ¬ ∀ (source : String) (nodes : List Node) (declaration : Declaration) (owner : Option Node),
      Sheet.ofText? source = .ok nodes → declaration.StandsIn owner none nodes →
      isCustomProperty declaration.property = false →
      ∀ before heading value stop, declaration.Written source before heading value stop →
      ∀ tokens, (Component.ofText? (String.ofList value)).map
          (List.map (Component.shift (size (before ++ heading)))) = .ok tokens →
        ∃ components, declaration.value = .components components ∧
          (components, declaration.important) = cutMark tokens := by
  intro hagrees
  have hends : (Cursor.mk 2 ("color:".toList ++ "red\\!important".toList ++ ['\x7d'])).upTo
      Sheet.stops 0 = .ok ("color:".toList ++ "red\\!important".toList, ⟨22, ['\x7d']⟩) := by
    decide +kernel
  have hlength : (Component.readAll ⟨8, trimEnd (cutImportant "red\\!important".toList).1⟩).map
      List.length = .ok 2 := by
    decide +kernel
  have hmark : ((Component.ofText? (String.ofList "red\\!important".toList)).map
      (List.map (Component.shift 8))).map (fun tokens => (cutMark tokens).2) = .ok false := by
    decide +kernel
  obtain ⟨components, hread, -⟩ := exists_of_map hlength
  obtain ⟨tokens, htokens, hunmarked⟩ := exists_of_map hmark
  obtain ⟨nodes, declaration, owner, hnodes, hstands, hproperty, -, himportant, hwritten⟩ :=
    exists_colored hends hread
  obtain ⟨components', -, heq⟩ := hagrees _ nodes declaration owner hnodes hstands
    (hproperty ▸ isCustomProperty_color) _ _ _ _ hwritten tokens htokens
  have hmarked : declaration.important = true := himportant.trans (by decide +kernel)
  rw [← heq, hmarked] at hunmarked
  cases hunmarked

end WebFonts.Css
