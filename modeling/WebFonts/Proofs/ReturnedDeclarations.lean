import WebFonts.Proofs.Declarations
import WebFonts.Proofs.ImportantMark
import WebFonts.Proofs.LineBreaks
import WebFonts.Proofs.RelocatedFamilies

/-!
# Declarations with carriage returns

A declaration in a text with carriage returns in front of its line feeds names the families that it
named, and the end of the first one is moved (`Declaration.ofStatement?_returned`).

Stretches of text end where they ended (`Cursor.upTo_returned`, `Cursor.block_returned`), because a
line feed, which becomes two lexemes, opens no bracket and stops nothing. A mark is cut off as
before (`cutImportant_withReturns`), since no line break stands in its keyword. The components of a
value resemble those that were read (`Component.readAll_returned`); what stands in an address may
differ, and names no family.
-/

namespace WebFonts.Css

open Text (size withReturns withReturns_cons PlainBreaks)
open Cursor (Reads)

variable {move : Nat → Nat}

/-! ### Stretches of text -/

namespace Lexeme

theorem depthAfter_returned (depth : Nat) (lexeme : Lexeme) :
    lexeme.returned.depthAfter depth = lexeme.depthAfter depth := by
  cases lexeme <;> rfl

theorem isOneOf_returned (stops : List Char) (lexeme : Lexeme) :
    lexeme.returned.isOneOf stops = lexeme.isOneOf stops := by
  cases lexeme <;> rfl

theorem isTrivia_returned (lexeme : Lexeme) : lexeme.returned.isTrivia = lexeme.isTrivia := by
  cases lexeme <;> rfl

end Lexeme

namespace Cursor

variable {cur next stop : Cursor}

theorem text_returned {lexeme : Lexeme} (h : cur.MovedBy move)
    (hbreak : cur.rest.head? ≠ some '\n') (hlexeme : cur.lexeme? = .ok (some (lexeme, next))) :
    lexeme.returned.text = withReturns lexeme.text := by
  obtain ⟨hbefore, hreads⟩ := lexeme?_eq_ok_some_iff.mp hlexeme
  cases lexeme with
  | quoted text => rfl
  | comment text => rfl
  | escape text =>
    have hplain := h.plain
    rw [hreads.rest_eq] at hplain
    generalize next.rest = rest at hbefore hplain
    cases hbefore with
    | escape c =>
      have hc : c ≠ '\n' := PlainBreaks.ne_break hplain
      have htext : '\n' ∉ ['\\', c] := by simp [hc.symm]
      exact (Text.withReturns_eq_self htext).symm
    | backslash => rfl
  | plain c =>
    rw [hreads.rest_eq] at hbreak
    have hc : c ≠ '\n' := by simpa [Lexeme.text] using hbreak
    exact (withReturns_cons hc []).symm

theorem lexeme?_at_break (hbreak : cur.rest.head? = some '\n') :
    ∃ rest, cur.rest = '\n' :: rest ∧
      cur.lexeme? = .ok (some (.plain '\n', cur.pass ['\n'] rest)) := by
  obtain ⟨rest, hrest⟩ := List.head?_eq_some_iff.mp hbreak
  exact ⟨rest, hrest, lexeme?_of_cons hrest (by decide) (absurd · (by decide))⟩

/-- Where no lexeme is read, no line feed stands. -/
theorem lexeme?_ne_break {outcome : Except Fault (Option (Lexeme × Cursor))}
    (h : cur.lexeme? = outcome) (houtcome : ∀ found, outcome ≠ .ok (some found)) :
    cur.rest.head? ≠ some '\n' := by
  intro hbreak
  obtain ⟨rest, -, hread⟩ := lexeme?_at_break hbreak
  exact houtcome _ (h.symm.trans hread)

/-- A lexeme is read as one or, if it is a line feed, as two. -/
theorem lexeme?_returned_of_some {lexeme : Lexeme} (h : cur.MovedBy move)
    (hlexeme : cur.lexeme? = .ok (some (lexeme, next))) :
    (cur.returned move).lexeme? = .ok (some (lexeme.returned, next.returned move)) ∧
        lexeme.returned.text = withReturns lexeme.text ∨
      lexeme = .plain '\n' ∧ ∃ between : Cursor,
        (cur.returned move).lexeme? = .ok (some (.plain '\r', between)) ∧
          between.lexeme? = .ok (some (.plain '\n', next.returned move)) := by
  by_cases hbreak : cur.rest.head? = some '\n'
  · obtain ⟨rest, hrest, hread⟩ := lexeme?_at_break hbreak
    rw [hlexeme] at hread
    cases hread
    exact .inr ⟨rfl, lexeme?_of_break h hrest⟩
  · exact .inl ⟨by rw [lexeme?_returned h hbreak, hlexeme]; rfl, text_returned h hbreak hlexeme⟩

theorem upTo_of_error {stops : List Char} {depth : Nat} {fault : Fault}
    (h : cur.lexeme? = .error fault) : cur.upTo stops depth = .error fault := by
  rw [upTo.eq_def]
  split <;> simp_all

/-- A lexeme is passed over in a text with carriage returns, a line feed in two steps. -/
theorem upTo_returned_of_lexeme? {stops : List Char} (hstops : '\n' ∉ stops ∧ '\r' ∉ stops)
    {depth : Nat} {lexeme : Lexeme} (h : cur.MovedBy move)
    (hlexeme : cur.lexeme? = .ok (some (lexeme, next)))
    (hpass : ¬ (depth = 0 ∧ lexeme.isOneOf stops = true)) :
    (cur.returned move).upTo stops depth =
      ((next.returned move).upTo stops (lexeme.depthAfter depth)).map
        (Prod.map (withReturns lexeme.text ++ ·) id) := by
  rcases lexeme?_returned_of_some h hlexeme with ⟨hread, htext⟩ | ⟨rfl, between, hfirst, hsecond⟩
  · rw [upTo_of_lexeme? hread (by rwa [Lexeme.isOneOf_returned]), Lexeme.depthAfter_returned, htext]
    cases upTo stops _ _ <;> rfl
  · have hnone (c : Char) (hc : c ∉ stops) : ¬ (depth = 0 ∧ (Lexeme.plain c).isOneOf stops) := by
      simp [Lexeme.isOneOf, hc]
    have hdepth : (Lexeme.plain '\r').depthAfter depth = depth := rfl
    rw [upTo_of_lexeme? hfirst (hnone _ hstops.2), hdepth,
      upTo_of_lexeme? hsecond (hnone _ hstops.1)]
    cases upTo stops _ _ <;> rfl

/-- A stretch of text ends at the same place. -/
theorem upTo_returned {stops : List Char} (hplain : Plain stops)
    (hstops : '\n' ∉ stops ∧ '\r' ∉ stops) {depth : Nat} (h : cur.MovedBy move) :
    (cur.returned move).upTo stops depth =
      relocated move (Prod.map withReturns (returned move)) (cur.upTo stops depth) := by
  fun_induction upTo stops depth cur with
  | case1 depth cur fault hfault =>
    have hbreak := lexeme?_ne_break hfault fun _ h => by cases h
    exact upTo_of_error (by rw [lexeme?_returned h hbreak, hfault]; rfl)
  | case2 depth cur hnone =>
    have hend := lexeme?_eq_ok_none_iff.mp hnone
    exact upTo_of_halts hplain (.inl (by rw [returned_rest, hend]; rfl))
  | case3 depth cur lexeme next hlexeme hstop =>
    simp only [Bool.and_eq_true, beq_iff_eq] at hstop
    obtain ⟨c, rest, hrest, hmem⟩ := lexeme?_isOneOf hlexeme hstop.2
    have hc : c ≠ '\n' := fun heq => hstops.1 (heq ▸ hmem)
    exact upTo_of_halts hplain
      (.inr ⟨hstop.1, c, hmem, by rw [returned_rest, hrest, withReturns_cons hc]; rfl⟩)
  | case4 depth cur lexeme next hlexeme hpass fault hfault ih =>
    have hnext := h.of_reads (reads_lexeme? hlexeme)
    rw [upTo_returned_of_lexeme? hstops h hlexeme (by simpa using hpass), ih hnext, hfault]
    rfl
  | case5 depth cur lexeme next hlexeme hpass text stop htext ih =>
    have hnext := h.of_reads (reads_lexeme? hlexeme)
    rw [upTo_returned_of_lexeme? hstops h hlexeme (by simpa using hpass), ih hnext, htext]
    rw [relocated_ok, relocated_ok, Prod.map_apply, Prod.map_apply, Text.withReturns_append]
    rfl

theorem returned_cons {offset : Nat} {c : Char} (hc : c ≠ '\n') (rest : List Char) :
    (Cursor.mk offset (c :: rest)).returned move = ⟨move offset, c :: withReturns rest⟩ := by
  rw [returned, withReturns_cons hc]

/-- A block is closed at the same place. -/
theorem closeBlock_returned {brace depth : Nat} {last : Cursor} {text : List Char}
    (h : cur.MovedBy move) (hclose : cur.closeBlock brace depth = .ok (text, last))
    (brace' : Nat) :
    (cur.returned move).closeBlock brace' depth = .ok (withReturns text, last.returned move) := by
  fun_induction closeBlock brace depth cur generalizing text last with
  | case1 =>
    cases hclose
    simp [closeBlock]
  | case2 => cases hclose
  | case3 => cases hclose
  | case4 cur outer front offset c rest hfront tail last' htail ih =>
    cases hclose
    have hstop := h.of_reads (reads_upTo hfront)
    have hc : c ≠ '\n' := by
      rintro rfl
      rcases stop_of_upTo hfront with hend | ⟨d, others, heq, hmem⟩
      · cases hend
      · cases heq
        revert hmem
        decide
    have hpass := hstop.returned_pass_of_notMem [c] rest rfl (by simp [hc.symm])
    have hup := @upTo_returned _ _ _ plain_braces (by decide) 0 h
    rw [hfront, relocated_ok, Prod.map_apply, returned_cons hc] at hup
    have hnext : Cursor.mk (move offset + size [c]) (withReturns rest) =
        (Cursor.mk (offset + size [c]) rest).returned move := hpass
    simp only [dite_eq_ite] at ih htail
    have hmoved : Cursor.MovedBy move ⟨offset + size [c], rest⟩ :=
      hstop.of_reads (reads_pass (show c :: rest = [c] ++ rest from rfl))
    rw [closeBlock_of_upTo hup, hnext, ih hmoved htail]
    simp [withReturns_cons hc]
  | case5 => cases hclose

theorem block_returned {last : Cursor} {text : List Char} (h : cur.MovedBy move)
    (hbrace : cur.rest.head? = some '{') (hblock : cur.block = .ok (text, last)) :
    (cur.returned move).block = .ok (withReturns text, last.returned move) := by
  obtain ⟨rest, hrest⟩ := List.head?_eq_some_iff.mp hbrace
  have hreturned : (cur.returned move).rest = '{' :: withReturns rest := by
    rw [returned_rest, hrest, withReturns_cons (by decide)]
  have hpass := h.returned_pass_of_notMem ['{'] rest hrest (by decide)
  simp only [block, hrest, bind, Except.bind, pure, Except.pure] at hblock
  split at hblock <;> cases hblock
  rename_i hclose
  have hnext := h.of_reads (reads_pass (show cur.rest = ['{'] ++ rest from hrest))
  have hclose := closeBlock_returned hnext hclose (move cur.offset)
  simp only [block, hreturned, returned_offset, hpass, hclose, bind, Except.bind, pure, Except.pure,
    withReturns_cons (show '{' ≠ '\n' by decide)]

/-! ### Trailing trivia -/

theorem withoutTrailingTrivia_of_error {fault : Fault} (h : cur.lexeme? = .error fault) :
    cur.withoutTrailingTrivia = .error fault := by
  rw [withoutTrailingTrivia.eq_def]
  split <;> simp_all

theorem withoutTrailingTrivia_of_none (h : cur.lexeme? = .ok none) :
    cur.withoutTrailingTrivia = .ok [] := by
  rw [withoutTrailingTrivia.eq_def]
  split <;> simp_all

theorem withoutTrailingTrivia_returned_of_lexeme? {lexeme : Lexeme} (h : cur.MovedBy move)
    (hlexeme : cur.lexeme? = .ok (some (lexeme, next))) :
    (cur.returned move).withoutTrailingTrivia =
      (next.returned move).withoutTrailingTrivia.map fun kept =>
        if kept.isEmpty && lexeme.isTrivia then [] else withReturns lexeme.text ++ kept := by
  rcases lexeme?_returned_of_some h hlexeme with ⟨hread, htext⟩ | ⟨rfl, between, hfirst, hsecond⟩
  · rw [withoutTrailingTrivia_of_lexeme? hread, Lexeme.isTrivia_returned, htext]
    cases withoutTrailingTrivia _ <;> rfl
  · rw [withoutTrailingTrivia_of_lexeme? hfirst, withoutTrailingTrivia_of_lexeme? hsecond]
    cases withoutTrailingTrivia _ with
    | error fault => rfl
    | ok kept => cases kept <;> rfl

theorem withoutTrailingTrivia_returned (h : cur.MovedBy move) :
    (cur.returned move).withoutTrailingTrivia =
      relocated move withReturns cur.withoutTrailingTrivia := by
  fun_induction withoutTrailingTrivia cur with
  | case1 cur fault hfault =>
    have hbreak := lexeme?_ne_break hfault fun _ h => by cases h
    exact withoutTrailingTrivia_of_error (by rw [lexeme?_returned h hbreak, hfault]; rfl)
  | case2 cur hnone =>
    have hbreak := lexeme?_ne_break hnone fun _ h => by cases h
    exact withoutTrailingTrivia_of_none (by rw [lexeme?_returned h hbreak, hnone]; rfl)
  | case3 cur lexeme next hlexeme fault hfault ih =>
    rw [withoutTrailingTrivia_returned_of_lexeme? h hlexeme,
      ih (h.of_reads (reads_lexeme? hlexeme)), hfault]
    rfl
  | case4 cur lexeme next hlexeme kept hkept ih =>
    rw [withoutTrailingTrivia_returned_of_lexeme? h hlexeme,
      ih (h.of_reads (reads_lexeme? hlexeme)), hkept]
    have hempty : (withReturns kept).isEmpty = kept.isEmpty := by
      rw [Bool.eq_iff_iff, List.isEmpty_iff, List.isEmpty_iff, Text.withReturns_eq_nil]
    simp only [relocated_ok, Except.map, hempty, apply_ite withReturns, Text.withReturns_append,
      Text.withReturns_nil]

end Cursor

/-! ### Important declarations -/

theorem dropTrailingTrivia_withReturns {text : List Char} (h : PlainBreaks text) :
    dropTrailingTrivia (withReturns text) = withReturns (dropTrailingTrivia text) := by
  unfold dropTrailingTrivia
  rw [← Cursor.returned_start, Cursor.withoutTrailingTrivia_returned (.start h)]
  cases (Cursor.start text).withoutTrailingTrivia <;> rfl

theorem notMem_of_important {word : List Char}
    (h : Text.sameIgnoringCase (String.ofList word) "important" = true) : '\n' ∉ word := fun hmem =>
  absurd ((plain_of_important h).2.2 _ hmem) (by decide)

theorem cutImportant_withReturns {value : List Char} (h : PlainBreaks value) :
    cutImportant (withReturns value) = (cutImportant value).map withReturns id := by
  cases hcut : cutImportant value with
  | mk kept important =>
    cases important with
    | true =>
      obtain ⟨front, word, hcontent, hword, hmarked⟩ := cutImportant_eq_true_iff.mp hcut
      refine cutImportant_eq_true_iff.mpr ⟨withReturns front, word, ?_, hword, ?_⟩
      · rw [dropTrailingTrivia_withReturns h, hcontent, Text.withReturns_append,
          Text.withReturns_eq_self (notMem_of_important hword)]
      · have hfront : front <+: value := .trans ⟨word, hcontent.symm⟩
          (dropTrailingTrivia_append_eq value)
        rw [dropTrailingTrivia_withReturns (h.of_part hfront.isInfix), hmarked,
          Text.withReturns_append]
        rfl
    | false =>
      obtain rfl := cutImportant_of_not_important hcut
      cases hcut' : cutImportant (withReturns kept) with
      | mk kept' important =>
        cases important with
        | false => rw [cutImportant_of_not_important hcut']; rfl
        | true =>
          obtain ⟨front', word, hcontent, hword, hmarked⟩ := cutImportant_eq_true_iff.mp hcut'
          rw [dropTrailingTrivia_withReturns h] at hcontent
          obtain ⟨front, hfront, rfl⟩ :=
            Text.exists_append_of_withReturns hcontent (notMem_of_important hword)
          have hpart : front <+: kept := .trans ⟨word, hfront.symm⟩
            (dropTrailingTrivia_append_eq kept)
          rw [dropTrailingTrivia_withReturns (h.of_part hpart.isInfix)] at hmarked
          obtain ⟨marked, hmarked, -⟩ := Text.exists_append_of_withReturns hmarked (by decide)
          have htrue := cutImportant_eq_true_iff.mpr ⟨front, word, hfront, hword, hmarked⟩
          rw [hcut] at htrue
          cases (Prod.mk.inj htrue).2

/-! ### Values -/

theorem Component.resembles_of_like {leaf : Token} {piece' : Piece}
    (h : (Piece.token leaf).Like piece') (span : Span) :
    ∃ leaf', piece' = .token leaf' ∧
      (Component.token span leaf).Resembles move (.token (span.relocate move) leaf') := by
  cases h with
  | same => exact ⟨leaf, rfl, NamedFamilies.resembles_relocate (.token span leaf)⟩
  | address address address' => exact ⟨.url address', rfl, rfl, rfl, rfl, rfl, rfl, rfl⟩

namespace Component

variable {inFunction : Bool} {cur next last : Cursor} {components : List Component}

/-- Components are read over lines that end in two characters as they were. -/
theorem Reading.returned (h : Reading inFunction cur components last) (hmoved : cur.MovedBy move) :
    ∃ components', Reading inFunction (cur.returned move) components' (last.returned move) ∧
      List.Forall₂ (Resembles move) components components' := by
  induction h with
  | nil inFunction cur => exact ⟨[], .nil _ _, .nil⟩
  | separator h others ih =>
    obtain ⟨separator, hreads, -⟩ := Cursor.reads_separator? h
    obtain ⟨components', hreading, hlike⟩ := ih (hmoved.of_reads hreads)
    refine ⟨components', ?_, hlike⟩
    rcases Cursor.separator?_returned_of_some hmoved h with hread | ⟨between, hfirst, hsecond⟩
    · exact .separator hread hreading
    · exact .separator hfirst (.separator hsecond hreading)
  | @token inFunction cur next last components leaf htoken h others ih =>
    obtain ⟨taken, hreads, -⟩ := Cursor.reads_piece? h
    obtain ⟨components', hreading, hlike⟩ := ih (hmoved.of_reads hreads)
    obtain ⟨piece', hpiece', hsame⟩ := Cursor.piece?_returned hmoved htoken h
    obtain ⟨leaf', rfl, hleaf⟩ := resembles_of_like hsame ⟨cur.offset, next.offset⟩
    exact ⟨_, .token (Cursor.atToken_returned hmoved htoken) hpiece' hreading, .cons hleaf hlike⟩
  | @function inFunction cur inside close next last name arguments components htoken h inner hclose
      hclosing others ihInner ihOthers =>
    obtain ⟨opening, hopening, -⟩ := Cursor.reads_piece? h
    obtain ⟨taken, hinner⟩ := inner.reads
    obtain ⟨closing, hreads, -⟩ := Cursor.reads_piece? hclosing
    have hinside := hmoved.of_reads hopening
    have hclosed := hinside.of_reads hinner
    obtain ⟨arguments', hreadingInner, -⟩ := ihInner hinside
    obtain ⟨components', hreading, hlike⟩ := ihOthers (hclosed.of_reads hreads)
    obtain ⟨-, hpiece', ⟨⟩⟩ := Cursor.piece?_returned hmoved htoken h
    obtain ⟨-, hclosing', ⟨⟩⟩ := Cursor.piece?_returned hclosed hclose hclosing
    exact ⟨_, .function (Cursor.atToken_returned hmoved htoken) hpiece' hreadingInner
      (Cursor.atToken_returned hclosed hclose) hclosing' hreading,
      .cons ⟨rfl, rfl, rfl, rfl, rfl, rfl⟩ hlike⟩
  | @stray cur next last components htoken h others ih =>
    obtain ⟨taken, hreads, -⟩ := Cursor.reads_piece? h
    obtain ⟨components', hreading, hlike⟩ := ih (hmoved.of_reads hreads)
    obtain ⟨-, hpiece', ⟨⟩⟩ := Cursor.piece?_returned hmoved htoken h
    exact ⟨_, .stray (Cursor.atToken_returned hmoved htoken) hpiece' hreading,
      .cons (NamedFamilies.resembles_relocate (.token _ (.delim ')'))) hlike⟩

/-- A value is read over lines that end in two characters as it was. -/
theorem readAll_returned (hmoved : cur.MovedBy move) (h : readAll cur = .ok components) :
    ∃ components', readAll (cur.returned move) = .ok components' ∧
      List.Forall₂ (Resembles move) components components' := by
  obtain ⟨last, hreading, hend⟩ := readAll_eq_ok_iff.mp h
  obtain ⟨components', hreading', hlike⟩ := hreading.returned hmoved
  exact ⟨components', readAll_eq_ok_iff.mpr ⟨_, hreading', by rw [Cursor.returned_rest, hend]; rfl⟩,
    hlike⟩

end Component

/-! ### Declarations -/

/-- A value over lines that end in two characters instead of one. -/
inductive Value.Returned (move : Nat → Nat) : Value → Value → Prop
  | components {parts parts' : List Component}
      (h : List.Forall₂ (Component.Resembles move) parts parts') :
      Returned move (.components parts) (.components parts')
  | raw {text : List Char} (span span' : Span) (h : PlainBreaks text) :
      Returned move (.raw ⟨String.ofList text, span⟩)
        (.raw ⟨String.ofList (withReturns text), span'⟩)

/-- If the families of a declaration are known, another one names the same families, and the end of
the first one is moved. -/
structure Declaration.Follows (move : Nat → Nat) (declaration declaration' : Declaration) :
    Prop where
  property_eq : declaration'.property = declaration.property
  families : ∀ families, NamedFamilies.ofDeclaration? declaration = .ok families →
    NamedFamilies.ofDeclaration? declaration' = .ok (families.relocate move)

namespace Declaration

theorem Follows.of_value {declaration declaration' : Declaration}
    (hproperty : declaration'.property = declaration.property)
    (h : declaration.value.Returned move declaration'.value) :
    declaration.Follows move declaration' := by
  refine ⟨hproperty, fun families hfamilies => ?_⟩
  obtain ⟨property, value, important, span⟩ := declaration
  obtain ⟨property', value', important', span'⟩ := declaration'
  obtain rfl : property' = property := hproperty
  cases h with
  | components h =>
    cases hfamilies
    exact congrArg Except.ok (NamedFamilies.ofValue_resembles property' h)
  | @raw text rawSpan rawSpan' h =>
    simp only [NamedFamilies.ofDeclaration?, Component.ofText?, String.toList_ofList, bind,
      Except.bind, pure, Except.pure] at hfamilies ⊢
    split at hfamilies
    · cases hfamilies
    · rename_i parts hparts
      cases hfamilies
      obtain ⟨parts', hparts', hlike⟩ := Component.readAll_returned (.start h) hparts
      rw [← Cursor.returned_start, hparts']
      exact congrArg (fun families => Except.ok { families with firstStop := none })
        (NamedFamilies.ofValue_resembles property' hlike)

variable {statement cur next : Cursor}

theorem readProperty_returned {property : String} (h : statement.MovedBy move)
    (hproperty : readProperty statement = .ok (property, next)) :
    readProperty (statement.returned move) = .ok (property, next.returned move) := by
  unfold readProperty Cursor.fail at hproperty ⊢
  rw [Cursor.char?_returned h (by decide) (by decide)]
  cases hstar : statement.char? '*' with
  | none =>
    simp only [hstar, Option.map_none, Cursor.identifier?_returned h] at hproperty ⊢
    split at hproperty
    · rename_i hname
      cases hproperty
      rw [hname]
      rfl
    · cases hproperty
  | some named =>
    have hnamed := h.of_reads (Cursor.reads_char? hstar)
    simp only [hstar, Option.map_some, Cursor.identifier?_returned hnamed] at hproperty ⊢
    split at hproperty
    · rename_i hname
      cases hproperty
      rw [hname]
      rfl
    · cases hproperty

theorem readValue_returned {property : String} {text : List Char} {value : Value}
    (h : cur.MovedBy move) (htext : text <+: cur.rest)
    (hvalue : readValue property cur text = .ok value) :
    ∃ value', readValue property (cur.returned move) (withReturns text) = .ok value' ∧
      value.Returned move value' := by
  obtain ⟨blanks, hblanks, -⟩ := Text.trimEnd_append text
  have hkept : Text.trimEnd text <+: cur.rest := .trans ⟨blanks, hblanks⟩ htext
  unfold readValue at hvalue ⊢
  dsimp only at hvalue ⊢
  rw [Text.trimEnd_withReturns]
  split at hvalue
  · cases hvalue
    rw [if_pos ‹_›, Text.trimStart_withReturns]
    have hplain := h.plain.of_part hkept.isInfix
    refine ⟨_, rfl, .raw _ _ (hplain.of_part ?_)⟩
    exact (List.dropWhile_suffix _).isInfix
  · rw [if_neg ‹_›]
    cases hparts : Component.readAll ⟨cur.offset, Text.trimEnd text⟩ with
    | error fault => rw [hparts] at hvalue; cases hvalue
    | ok parts =>
      rw [hparts] at hvalue
      cases hvalue
      obtain ⟨parts', hparts', hlike⟩ := Component.readAll_returned (h.of_prefix hkept) hparts
      have hread : Component.readAll ⟨move cur.offset, withReturns (Text.trimEnd text)⟩ =
        .ok parts' := hparts'
      exact ⟨.components parts', by rw [Cursor.returned_offset, hread]; rfl, .components hlike⟩

/-- A declaration over lines that end in two characters is read, and names the same families. -/
theorem ofStatement?_returned {declaration : Declaration} (h : statement.MovedBy move)
    (hread : ofStatement? statement = .ok declaration) :
    ∃ declaration', ofStatement? (statement.returned move) = .ok declaration' ∧
      declaration.Follows move declaration' := by
  obtain ⟨named, colon, cur, hproperty, hskip, hcolon, hvalue, -, -⟩ := ofStatement?_eq_ok hread
  obtain ⟨name, hname⟩ := reads_readProperty hproperty
  obtain ⟨gap, hgap⟩ := Cursor.reads_skipTrivia hskip
  have hnamed := h.of_reads hname
  have hskipped := hnamed.of_reads hgap
  have hcur := hskipped.of_reads hcolon
  obtain ⟨mark, hmark⟩ := cutImportant_append_eq cur.rest
  obtain ⟨value', hvalue', hreturned⟩ := readValue_returned hcur ⟨mark, hmark⟩ hvalue
  have hproperty' := readProperty_returned h hproperty
  have hskip' := Cursor.skipTrivia_returned hnamed
  have hcolon' := Cursor.char?_returned hskipped (c := ':') (by decide) (by decide)
  rw [hskip, relocated_ok] at hskip'
  rw [Cursor.char?_of_cons hcolon.rest_eq, Cursor.pass, ← hcolon.offset_eq, Option.map_some,
    List.append_eq, List.nil_append] at hcolon'
  let span : Span := ⟨move statement.offset,
    move statement.offset + size (Text.trimEnd (withReturns statement.rest))⟩
  refine ⟨⟨declaration.property, value', (cutImportant cur.rest).2, span⟩, ?_,
    .of_value rfl hreturned⟩
  simp only [ofStatement?, hproperty', hskip', hcolon', bind, Except.bind, Cursor.returned_rest,
    cutImportant_withReturns hcur.plain, Prod.map_fst, hvalue', Prod.map_snd, id, pure, Except.pure]
  rfl

end Declaration

end WebFonts.Css
