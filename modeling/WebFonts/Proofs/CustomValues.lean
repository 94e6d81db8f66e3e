import WebFonts.Proofs.FirstFamily
import WebFonts.Proofs.MarkAgreement
import WebFonts.Proofs.QuotedValues

/-!
# Families of custom properties

The value of a custom property is kept as text, without the blanks around it, and is divided into
components only when its families are asked for. Every other value is divided where it stands.
`families_of_custom` compares the two ways on one text behind `--x:` and behind `font-family:`: both
fail for the same cause, or both name the same families.

The two readings begin at different places, in front of the blanks of the value and behind them.
Some blanks separate no tokens, so that there are more components in the first reading
(`readAll_blanks`); these are no names and no commas, and the families do not notice them
(`ofComponents_append_delims`).
-/

namespace WebFonts.Css

open NamedFamilies (ofComponents ofDeclaration? ofValue)
open Text (size isBlank trimEnd trimStart)

/-! ### Blanks in front of a value -/

/-- A token of one character that begins no other token. -/
def Component.IsDelim (component : Component) : Prop :=
  ∃ span c, component = .token span (.delim c)

/-- The blanks of ASCII that separate no tokens. -/
theorem eq_of_isBlank {c : Char} (hblank : isBlank c = true) (hascii : c.toNat < 0x80)
    (hwhite : c.isWhitespace = false) : c = '\x0B' ∨ c = '\x0C' := by
  have hcode : Char.ofNat c.toNat = c := Char.ofNat_toNat c
  have hrange : 9 ≤ c.toNat ∧ c.toNat ≤ 13 ∨ c.toNat = 32 := by
    simp only [isBlank, Bool.or_eq_true, Bool.and_eq_true, decide_eq_true_eq, beq_iff_eq] at hblank
    omega
  generalize c.toNat = n at hcode hrange
  subst hcode
  have hcases : n = 9 ∨ n = 10 ∨ n = 11 ∨ n = 12 ∨ n = 13 ∨ n = 32 := by omega
  rcases hcases with rfl | rfl | rfl | rfl | rfl | rfl
  · cases hwhite
  · cases hwhite
  · exact .inl rfl
  · exact .inr rfl
  · cases hwhite
  · cases hwhite

/-- A blank of ASCII that separates no tokens is a token of its own. -/
theorem Cursor.piece?_of_isBlank {cur : Cursor} {c : Char} {rest : List Char}
    (hrest : cur.rest = c :: rest) (hblank : isBlank c = true) (hascii : c.toNat < 0x80)
    (hwhite : c.isWhitespace = false) :
    cur.piece? = .ok (some (.token (.delim c), cur.pass [c] rest)) := by
  have hurl (h : c.toLower ≠ 'u') : cur.url? = none := by
    by_contra hsome
    obtain ⟨found, hfound⟩ := Option.ne_none_iff_exists'.mp hsome
    obtain ⟨-, d, tail, hcons, hd⟩ := eq_url_of_url? hfound
    obtain ⟨rfl, -⟩ := List.cons.inj (hrest.symm.trans hcons)
    exact h hd
  have hnumeric : cur.numeric? = none := by
    rw [numeric?_eq_none_iff, numeral?_eq_none_iff, hrest]
    rcases eq_of_isBlank hblank hascii hwhite with rfl | rfl
    · exact ⟨Numeral.noDigit_cons.mpr rfl, rfl⟩
    · exact ⟨Numeral.noDigit_cons.mpr rfl, rfl⟩
  have hidentifier : cur.identifier? = none := by
    rw [identifier?_eq_none_iff, hrest]
    rcases eq_of_isBlank hblank hascii hwhite with rfl | rfl <;> rfl
  unfold piece?
  rw [hrest]
  rcases eq_of_isBlank hblank hascii hwhite with rfl | rfl <;>
    simp [isQuote, otherPiece, hurl, hnumeric, hidentifier]

/-- Two moves, one after the other. -/
theorem moved_moved {α β γ : Type} (distance distance' : Nat) (move : α → β) (move' : β → γ)
    (outcome : Except Fault α) :
    moved distance' move' (moved distance move outcome) =
      moved (distance + distance') (move' ∘ move) outcome := by
  cases outcome with
  | ok result => rfl
  | error fault => simp only [moved_error, Fault.shift, Nat.add_assoc]

namespace Component

/-- What is read behind blanks of ASCII is read as if it stood alone, only further on and behind a
delimiter for each blank that separates no tokens. -/
theorem readAll_blanks {blanks : List Char}
    (h : ∀ c ∈ blanks, isBlank c = true ∧ c.toNat < 0x80) (offset : Nat) (text : List Char) :
    ∃ delims : List Component, (∀ delim ∈ delims, delim.IsDelim) ∧
      readAll ⟨offset, blanks ++ text⟩ =
        moved (offset + size blanks) (delims ++ List.map (shift (offset + size blanks)) ·)
          (readAll (.start text)) := by
  induction blanks generalizing offset with
  | nil => exact ⟨[], nofun, readAll_at offset text⟩
  | cons c blanks ih =>
    obtain ⟨⟨hblank, hascii⟩, hothers⟩ := List.forall_mem_cons.mp h
    have hsize : offset + size (c :: blanks) = offset + size [c] + size blanks := by
      simp only [Text.size_cons, Text.size_nil]
      omega
    rw [List.cons_append, hsize]
    cases hwhite : c.isWhitespace with
    | true =>
      have hseparator : (Cursor.mk offset (c :: (blanks ++ text))).separator? =
          .ok (some ⟨offset + size [c], blanks ++ text⟩) :=
        Cursor.separator?_of_reads (.blank hwhite) ⟨rfl, rfl⟩
      rw [readAll, run_of_separator? hseparator]
      exact ih hothers (offset + size [c])
    | false =>
      -- behind the delimiter the other blanks are read as if they began the text
      have htoken : AtToken (c :: (blanks ++ text)) := by
        rcases eq_of_isBlank hblank hascii hwhite with rfl | rfl
        · exact atToken_of_ne (by decide) (by decide)
        · exact atToken_of_ne (by decide) (by decide)
      obtain ⟨delims, hdelims, hread⟩ := ih hothers 0
      have hpiece : (Cursor.mk offset (c :: (blanks ++ text))).piece? =
          .ok (some (.token (.delim c), ⟨offset + size [c], blanks ++ text⟩)) :=
        Cursor.piece?_of_isBlank rfl hblank hascii hwhite
      refine ⟨.token ⟨offset, offset + size [c]⟩ (.delim c) ::
        delims.map (shift (offset + size [c])), ?_, ?_⟩
      · refine List.forall_mem_cons.mpr ⟨⟨_, c, rfl⟩, fun delim hmem => ?_⟩
        obtain ⟨inner, hinner, rfl⟩ := List.mem_map.mp hmem
        obtain ⟨span, d, rfl⟩ := hdelims inner hinner
        exact ⟨_, d, rfl⟩
      · rw [readAll_of_token htoken hpiece]
        dsimp only
        rw [Cursor.start, hread, moved_moved, Nat.zero_add, Nat.add_comm (size blanks)]
        congr 1
        funext components
        simp [shift_shift, Nat.add_comm]

end Component

namespace NamedFamilies

/-- Delimiters in front of a value name no families. -/
theorem ofComponents_append_delims {delims : List Component}
    (h : ∀ delim ∈ delims, delim.IsDelim) (components : List Component) :
    ofComponents (delims ++ components) = ofComponents components := by
  have hnameless : ∀ delim ∈ delims, Nameless delim := by
    intro delim hmem
    obtain ⟨span, c, rfl⟩ := h delim hmem
    exact ⟨rfl, rfl⟩
  have hnames := namesOf_append_of_nameless hnameless components
  have hgeneric : delims.filterMap generic? = [] := by
    refine List.filterMap_eq_nil_iff.mpr fun delim hmem => ?_
    obtain ⟨span, c, rfl⟩ := h delim hmem
    rfl
  unfold namesOf at hnames
  rw [ofComponents, hnames, List.filterMap_append, hgeneric, List.nil_append]
  rfl

/-- Families have the same names wherever their value stands. -/
theorem ofComponents_shift (distance : Nat) (components : List Component) :
    (ofComponents (components.map (Component.shift distance))).names =
        (ofComponents components).names ∧
      (ofComponents (components.map (Component.shift distance))).generic =
        (ofComponents components).generic := by
  have hbare : Component.bareAll (components.map (Component.shift distance)) =
      Component.bareAll components := by
    rw [← Component.shiftAll_eq_map, Component.bareAll_shiftAll]
  exact ofValue_of_bare "font-family" hbare

/-- The end of the first family is known if there is one. -/
theorem isSome_firstStop_ofComponents (components : List Component) :
    (ofComponents components).firstStop.isSome = true ↔ (ofComponents components).names ≠ [] := by
  unfold ofComponents
  generalize (components.splitOnP isComma).flatMap namesIn = names
  cases names <;> simp

end NamedFamilies

/-! ### One text behind two properties -/

theorem heading_custom : Declaration.Heading "--x" "--x:".toList := by
  have hspell : "--x:".toList = "--x".toList ++ [':'] := by decide +kernel
  have hread : Declaration.readProperty (.start ("--x".toList ++ [':'])) =
      .ok ("--x", ⟨size "--x".toList, [':']⟩) := by
    decide +kernel
  exact hspell ▸ .of_read hread

theorem heading_family : Declaration.Heading "font-family" "font-family:".toList :=
  Declaration.heading_word (by decide)

/-- A statement ends where it ended behind another heading. -/
theorem Sheet.upTo_of_heading {heading heading' value : List Char} {offset stop offset' : Nat}
    {rest : List Char} (h : ∀ c ∈ heading, Ordinary c) (h' : ∀ c ∈ heading', Ordinary c)
    (hends : (Cursor.mk offset (heading ++ value ++ rest)).upTo stops 0 =
      .ok (heading ++ value, ⟨stop, rest⟩)) :
    (Cursor.mk offset' (heading' ++ value ++ rest)).upTo stops 0 =
      .ok (heading' ++ value, ⟨offset' + size (heading' ++ value), rest⟩) := by
  obtain ⟨-, lexemes, hspell, hlexes, hpasses, hhalts⟩ :=
    (Cursor.upTo_eq_ok_iff plain_stops).mp hends
  have hflows := Flows.of_ordinary h
  have hflows' := Flows.of_ordinary h'
  have hfront : spell (heading.map Lexeme.plain) = heading := spell_plain heading
  obtain ⟨tail, rfl, htail⟩ := hlexes.split (hflows.lexes _) (hfront.symm ▸ hspell.symm)
  rw [passes_append, hflows.balanced] at hpasses
  rw [depthBehind_append, hflows.balanced] at hhalts
  refine (Cursor.upTo_eq_ok_iff plain_stops).mpr ⟨⟨rfl, rfl⟩, heading'.map Lexeme.plain ++ tail,
    ?_, ?_, ?_, ?_⟩
  · rw [spell_append, spell_plain, htail]
  · exact lexes_append.mpr ⟨hflows'.lexes _, (lexes_append.mp hlexes).2⟩
  · rw [passes_append, hflows'.balanced]
    exact ⟨hflows'.passes 0, hpasses.2⟩
  · rwa [depthBehind_append, hflows'.balanced]

/-- A text is divided in one way in front of a character that is no blank, where as much is kept of
its front part without the blanks at its end. -/
theorem append_inj_of_trimEnd {front back front' back' : List Char}
    (h : front ++ back = front' ++ back') (hsize : size (trimEnd front) = size (trimEnd front'))
    (hback : ∀ c, back.head? = some c → isBlank c = false)
    (hback' : ∀ c, back'.head? = some c → isBlank c = false) : front = front' ∧ back = back' := by
  have htakeWhile {blanks rest : List Char} (hblanks : blanks.all isBlank = true)
      (hrest : ∀ c, rest.head? = some c → isBlank c = false) :
      (blanks ++ rest).takeWhile isBlank = blanks := by
    rw [List.takeWhile_append_of_pos (List.all_eq_true.mp hblanks)]
    cases rest with
    | nil => simp
    | cons c rest => simp [hrest c rfl]
  obtain ⟨blanks, hfront, hblanks⟩ := Text.trimEnd_append front
  obtain ⟨blanks', hfront', hblanks'⟩ := Text.trimEnd_append front'
  have hparts : trimEnd front ++ (blanks ++ back) = trimEnd front' ++ (blanks' ++ back') := by
    rw [← List.append_assoc, ← List.append_assoc, hfront, hfront', h]
  obtain ⟨hkept, hbehind⟩ := Text.append_inj_of_size hparts hsize
  have hsame : blanks = blanks' := by
    rw [← htakeWhile hblanks hback, hbehind, htakeWhile hblanks' hback']
  rw [hsame, List.append_cancel_left_eq] at hbehind
  exact ⟨by rw [← hfront, ← hfront', hkept, hsame], hbehind⟩

/-- A declaration that reaches to the end of a text is read from the whole of it. -/
theorem exists_statement {value : List Char} {declaration : Declaration} {span : Span}
    (hread : Sheet.ofText? (Sheet.ruleOf ("--x:".toList ++ value)) =
      .ok [.rule "a" [.declaration declaration] span])
    (hcovers : declaration.span = ⟨2, 6 + size (trimEnd value)⟩) :
    (Cursor.mk 2 ("--x:".toList ++ value ++ ['\x7d'])).upTo Sheet.stops 0 =
        .ok ("--x:".toList ++ value, ⟨6 + size value, ['\x7d']⟩) ∧
      Declaration.ofStatement? ⟨2, "--x:".toList ++ value⟩ = .ok declaration := by
  obtain ⟨before, heading, behind, stop, hwritten⟩ := Sheet.exists_written hread
    (.rule (List.mem_singleton_self _) (.here (List.mem_singleton_self _)))
  obtain ⟨-, -, -, -, -, -, -, -, hspan⟩ := Declaration.ofStatement?_eq_ok hwritten.read
  have hends := hwritten.ends
  have hstatement := hwritten.read
  have hsource := hwritten.source_eq
  generalize heading ++ behind = statement at hspan hends hstatement hsource
  obtain ⟨hstart, hstop⟩ := Span.mk.inj (hcovers.symm.trans hspan)
  have hparts : ['a', '\x7b'] ++ ("--x:".toList ++ value ++ ['\x7d']) =
      before ++ (statement ++ stop.rest) :=
    String.toList_ofList.symm.trans hsource
  obtain ⟨rfl, hsplit⟩ := Text.append_inj_of_size hparts hstart
  have hheading : size "--x:".toList = 4 := by decide +kernel
  have hkept : size (trimEnd ("--x:".toList ++ value)) = size (trimEnd statement) := by
    have htrim : trimEnd ("--x:".toList ++ value) = "--x:".toList ++ trimEnd value := by
      rw [trimEnd_append]
      split
      · next hnil => rw [hnil, List.append_nil]; decide +kernel
      · rfl
    have hoffset : size ['a', '\x7b'] = 2 := rfl
    dsimp only at hstop
    rw [htrim, Text.size_append]
    omega
  have hbrace : ∀ c, ['\x7d'].head? = some c → isBlank c = false := by
    rintro c ⟨⟩
    decide
  have hhalt : ∀ c, stop.rest.head? = some c → isBlank c = false := by
    rcases Cursor.stop_of_upTo hends with hend | ⟨d, rest, hrest, hmem⟩
    · rw [hend]
      nofun
    · rw [hrest]
      rintro c ⟨⟩
      have hall : Sheet.stops.all (!isBlank ·) = true := by decide
      simpa using List.all_eq_true.mp hall d hmem
  obtain ⟨rfl, hrest⟩ := append_inj_of_trimEnd hsplit hkept hbrace hhalt
  have hreads := Cursor.reads_upTo hends
  have hstopEq : stop = ⟨6 + size value, ['\x7d']⟩ := by
    obtain ⟨offset, rest⟩ := stop
    have hoffset := hreads.offset_eq
    have htwo : size ['a', '\x7b'] = 2 := rfl
    dsimp only at hoffset hrest
    rw [Text.size_append, hheading, htwo] at hoffset
    rw [← hrest, hoffset]
    congr 1
    omega
  subst hstopEq
  exact ⟨hends, hstatement⟩

/-- The custom declaration of a text keeps it without the mark and without the blanks around it. -/
theorem ofDeclaration?_custom {value : List Char} {declaration : Declaration}
    (h : Declaration.ofStatement? ⟨2, "--x:".toList ++ value⟩ = .ok declaration) :
    declaration.important = (cutImportant value).2 ∧
      ofDeclaration? declaration =
        (Component.readAll (.start (trimStart (trimEnd (cutImportant value).1)))).map
          fun components => { ofComponents components with firstStop := none } := by
  have hcustom : isCustomProperty "--x" = true := by decide +kernel
  rw [Declaration.ofStatement?_heading heading_custom, Declaration.readValue, hcustom] at h
  obtain rfl := Except.ok.inj h
  refine ⟨rfl, ?_⟩
  simp only [ofDeclaration?, Component.ofText?, String.toList_ofList]
  cases Component.readAll (.start (trimStart (trimEnd (cutImportant value).1))) <;> rfl

/-- The sheet that sets `font-family` to a text is read where its value is. -/
theorem ofText?_family {value : List Char} {stop : Nat}
    (hends : (Cursor.mk 2 ("font-family:".toList ++ value ++ ['\x7d'])).upTo Sheet.stops 0 =
      .ok ("font-family:".toList ++ value, ⟨stop, ['\x7d']⟩)) :
    Sheet.ofText? (Sheet.ruleOf ("font-family:".toList ++ value)) =
      (Component.readAll ⟨14, trimEnd (cutImportant value).1⟩).map fun components =>
        [.rule "a" [.declaration ⟨"font-family", .components components, (cutImportant value).2,
          ⟨2, 2 + size (trimEnd ("font-family:".toList ++ value))⟩⟩] ⟨0, stop + 1⟩] := by
  have hbegins : Sheet.Begins .declarations ⟨2, "font-family:".toList ++ value ++ ['\x7d']⟩ :=
    .declarations (atToken_of_ne (by decide) (by decide)) (by decide) (by decide) 2
  have hcustom : isCustomProperty "font-family" = false := by decide +kernel
  have hoffset : 2 + size "font-family:".toList = 14 := by decide +kernel
  rw [Sheet.ofText?_ruleOf hbegins nofun hends, Declaration.ofStatement?_heading heading_family,
    Declaration.readValue, hcustom, hoffset, if_neg (by decide)]
  cases Component.readAll ⟨14, trimEnd (cutImportant value).1⟩ <;> rfl

/-- The families of a text behind `--x:` and behind `font-family:` are the same. The text begins
with no blank beyond ASCII and is all of the custom declaration. Either both ways to read it fail
for the same cause, where the sheet with `font-family` is refused and the one with `--x` is not; or
both find the same names and the same generic family, of which only the second knows an end. -/
theorem families_of_custom {value : List Char} {declaration : Declaration} {span : Span}
    (hascii : ∀ c ∈ value.takeWhile isBlank, c.toNat < 0x80)
    (hread : Sheet.ofText? (Sheet.ruleOf ("--x:".toList ++ value)) =
      .ok [.rule "a" [.declaration declaration] span])
    (hcovers : declaration.span = ⟨2, 6 + size (trimEnd value)⟩) :
    (∃ fault fault', ofDeclaration? declaration = .error fault ∧
        Sheet.ofText? (Sheet.ruleOf ("font-family:".toList ++ value)) = .error fault' ∧
        fault'.cause = fault.cause) ∨
      ∃ families declaration' span' families', ofDeclaration? declaration = .ok families ∧
        Sheet.ofText? (Sheet.ruleOf ("font-family:".toList ++ value)) =
          .ok [.rule "a" [.declaration declaration'] span'] ∧
        ofDeclaration? declaration' = .ok families' ∧
        declaration'.property = "font-family" ∧
        declaration'.important = declaration.important ∧ families'.names = families.names ∧
        families'.generic = families.generic ∧ families.firstStop = none ∧
        (families'.firstStop.isSome = true ↔ families'.names ≠ []) := by
  obtain ⟨hends, hstatement⟩ := exists_statement hread hcovers
  obtain ⟨himportant, hraw⟩ := ofDeclaration?_custom hstatement
  have hcustom : ∀ c ∈ "--x:".toList, Ordinary c := ordinary_of_all (by decide +kernel)
  have hfamily : ∀ c ∈ "font-family:".toList, Ordinary c := ordinary_of_all (by decide +kernel)
  have hsheet := ofText?_family (Sheet.upTo_of_heading hcustom hfamily hends)
  generalize hkept : trimEnd (cutImportant value).1 = kept at hraw hsheet
  -- the two readings begin in front of the blanks of what is kept and behind them
  have hblanks : ∀ c ∈ kept.takeWhile isBlank, isBlank c = true ∧ c.toNat < 0x80 := by
    obtain ⟨mark, hmark⟩ := cutImportant_append_eq value
    obtain ⟨trailing, htrailing, -⟩ := Text.trimEnd_append (cutImportant value).1
    have hvalue : value = kept ++ (trailing ++ mark) := by
      rw [← hkept, ← List.append_assoc, htrailing, hmark]
    intro c hc
    refine ⟨List.mem_takeWhile_imp hc, hascii c ?_⟩
    rw [hvalue, List.takeWhile_append]
    split
    · exact List.mem_append_left _ ((List.takeWhile_subset _) hc)
    · exact hc
  obtain ⟨delims, hdelims, hread'⟩ := Component.readAll_blanks hblanks 14 (trimStart kept)
  rw [trimStart, List.takeWhile_append_dropWhile] at hread'
  rw [hread'] at hsheet
  rw [trimStart] at hraw
  cases hfound : Component.readAll (.start (kept.dropWhile isBlank)) with
  | error fault =>
    rw [hfound] at hraw hsheet
    exact .inl ⟨fault, _, hraw, hsheet, rfl⟩
  | ok components =>
    rw [hfound] at hraw hsheet
    have hfamilies := NamedFamilies.ofComponents_append_delims hdelims
      (components.map (Component.shift (14 + size (kept.takeWhile isBlank))))
    obtain ⟨hnames, hgeneric⟩ :=
      NamedFamilies.ofComponents_shift (14 + size (kept.takeWhile isBlank)) components
    rw [← hfamilies] at hnames hgeneric
    exact .inr ⟨_, _, _, _, hraw, hsheet, rfl, rfl, himportant.symm, hnames, hgeneric, rfl,
      NamedFamilies.isSome_firstStop_ofComponents _⟩

/-- A name and a generic family between comments and blanks, with a mark. -/
def markedNames : List Char :=
  "\x0C /**/ \"A;\", b /* c */ d , serif ! important /**/ ".toList

/-- A text with blanks that separate no tokens, comments, a string and a mark. -/
theorem families_of_custom_of_mark :
    (∀ c ∈ markedNames.takeWhile isBlank, c.toNat < 0x80) ∧
      ∃ declaration span,
        Sheet.ofText? (Sheet.ruleOf ("--x:".toList ++ markedNames)) =
            .ok [.rule "a" [.declaration declaration] span] ∧
          declaration.span = ⟨2, 6 + size (trimEnd markedNames)⟩ ∧
          ∃ families declaration' span' families', ofDeclaration? declaration = .ok families ∧
            Sheet.ofText? (Sheet.ruleOf ("font-family:".toList ++ markedNames)) =
              .ok [.rule "a" [.declaration declaration'] span'] ∧
            ofDeclaration? declaration' = .ok families' ∧ declaration'.important = true ∧
            families'.names = ["A;", "b d"] ∧ families'.generic = some .serif ∧
            families'.firstStop.isSome = true := by
  have hall : (markedNames.takeWhile isBlank).all (·.toNat < 0x80) = true := by decide +kernel
  have hascii : ∀ c ∈ markedNames.takeWhile isBlank, c.toNat < 0x80 :=
    fun c hmem => of_decide_eq_true (List.all_eq_true.mp hall c hmem)
  have hends : (Cursor.mk 2 ("--x:".toList ++ markedNames ++ ['\x7d'])).upTo Sheet.stops 0 =
      .ok ("--x:".toList ++ markedNames, ⟨56, ['\x7d']⟩) := by
    decide +kernel
  obtain ⟨declaration, hstatement⟩ : ∃ declaration,
      Declaration.ofStatement? ⟨2, "--x:".toList ++ markedNames⟩ = .ok declaration := by
    have hcustom : isCustomProperty "--x" = true := by decide +kernel
    rw [Declaration.ofStatement?_heading heading_custom, Declaration.readValue, hcustom]
    exact ⟨_, rfl⟩
  have hbegins : Sheet.Begins .declarations ⟨2, "--x:".toList ++ markedNames ++ ['\x7d']⟩ :=
    .declarations (atToken_of_ne (by decide) (by decide)) (by decide) (by decide) 2
  have hat : ("--x:".toList ++ markedNames).head? ≠ some '@' := by
    decide +kernel
  have hread := Sheet.ofText?_ruleOf hbegins hat hends
  rw [hstatement] at hread
  have hcovers : declaration.span = ⟨2, 6 + size (trimEnd markedNames)⟩ := by
    obtain ⟨-, -, -, -, -, -, -, -, hspan⟩ := Declaration.ofStatement?_eq_ok hstatement
    rw [hspan]
    decide +kernel
  obtain ⟨himportant, hraw⟩ := ofDeclaration?_custom hstatement
  have hfound : (Component.readAll (.start (trimStart (trimEnd (cutImportant markedNames).1)))).map
      (fun components => ((ofComponents components).names, (ofComponents components).generic)) =
        .ok (["A;", "b d"], some .serif) := by
    decide +kernel
  obtain ⟨components, hcomponents, hexpected⟩ := exists_of_map hfound
  obtain ⟨hnames, hgeneric⟩ := Prod.mk.inj hexpected
  rw [hcomponents] at hraw
  refine ⟨hascii, declaration, _, hread, hcovers, ?_⟩
  rcases families_of_custom hascii hread hcovers with ⟨fault, -, hfault, -⟩ |
    ⟨families, declaration', span', families', hfamilies, hread', hfamilies', -, himportant',
      hnames', hgeneric', -, hstop⟩
  · cases hraw.symm.trans hfault
  · obtain rfl := Except.ok.inj (hraw.symm.trans hfamilies)
    have hnames := hnames'.trans hnames
    exact ⟨_, declaration', span', families', hraw, hread', hfamilies',
      himportant'.trans (himportant.trans (by decide +kernel)), hnames, hgeneric'.trans hgeneric,
      hstop.mpr (by simp [hnames])⟩

end WebFonts.Css
