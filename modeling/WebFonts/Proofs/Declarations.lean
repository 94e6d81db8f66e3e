import WebFonts.Proofs.Extents
import WebFonts.Proofs.Values
import WebFonts.Css.Declaration

/-!
# Declarations in a stylesheet

A statement is read apart from the text behind it, at its own offset. `ofStatement?_eq_ok` lists the
steps of a declaration that is read, and `value_eq_raw` places the text of a custom property. Both
are stated about the statement alone; `Reads.append_rest` carries them over to the whole source.

What stands in front of a value, the colon included, is a `Heading`. A value can be replaced behind
it: `ofStatement?_heading` says what is read then.
-/

namespace WebFonts.Css

open Text (size isBlank trimEnd trimStart)
open Cursor (Reads)

/-- What is read inside a part of a text is read in the whole text as well. -/
theorem Cursor.Reads.append_rest {cur next : Cursor} {taken : List Char} (h : Reads cur taken next)
    (rest : List Char) :
    Reads ⟨cur.offset, cur.rest ++ rest⟩ taken ⟨next.offset, next.rest ++ rest⟩ :=
  ⟨by simp [h.rest_eq], h.offset_eq⟩

namespace Declaration

variable {statement next : Cursor}

theorem reads_readProperty {property : String}
    (h : readProperty statement = .ok (property, next)) : ∃ name, Reads statement name next := by
  unfold readProperty Cursor.fail at h
  dsimp only at h
  split at h
  · rename_i name after hname
    cases h
    have hreads := (Cursor.reads_identifier? hname).1
    cases hstar : statement.char? '*' with
    | none =>
      rw [hstar] at hreads
      exact ⟨_, hreads⟩
    | some named =>
      rw [hstar] at hreads
      exact ⟨_, (Cursor.reads_char? hstar).trans hreads⟩
  · cases h

/-- A declaration that is read has a property, a colon and a value. -/
theorem ofStatement?_eq_ok {declaration : Declaration}
    (h : ofStatement? statement = .ok declaration) :
    ∃ named colon cur, readProperty statement = .ok (declaration.property, named) ∧
      named.skipTrivia = .ok colon ∧ Reads colon [':'] cur ∧
      readValue declaration.property cur (cutImportant cur.rest).1 = .ok declaration.value ∧
      declaration.important = (cutImportant cur.rest).2 ∧
      declaration.span =
        ⟨statement.offset, statement.offset + size (trimEnd statement.rest)⟩ := by
  simp only [ofStatement?, Cursor.fail, bind, Except.bind, pure, Except.pure] at h
  split at h
  · cases h
  · rename_i found hproperty
    split at h
    · cases h
    · rename_i colon hskip
      split at h
      · cases h
      · rename_i cur hcolon
        split at h
        · cases h
        · rename_i value hvalue
          cases h
          exact ⟨found.2, colon, cur, hproperty, hskip, Cursor.reads_char? hcolon, hvalue, rfl, rfl⟩

theorem reads_value {named colon cur : Cursor} {property : String}
    (hproperty : readProperty statement = .ok (property, named))
    (hskip : named.skipTrivia = .ok colon) (hcolon : Reads colon [':'] cur) :
    ∃ front, Reads statement (front ++ [':']) cur := by
  obtain ⟨name, hname⟩ := reads_readProperty hproperty
  obtain ⟨gap, hgap⟩ := Cursor.reads_skipTrivia hskip
  exact ⟨_, (hname.trans hgap).trans hcolon⟩

/-- The text of a custom property is its value without the blanks around it. -/
theorem readValue_eq_raw {property : String} {cur : Cursor} {text : List Char} {raw : Raw}
    (h : readValue property cur text = .ok (.raw raw)) :
    isCustomProperty property = true ∧ ∃ leading, trimEnd text = leading ++ raw.text.toList ∧
      raw.span = ⟨cur.offset + size leading, cur.offset + size (trimEnd text)⟩ := by
  unfold readValue at h
  dsimp only at h
  split at h
  · rename_i hcustom
    cases h
    have hleading := List.takeWhile_append_dropWhile (p := isBlank) (l := trimEnd text)
    have hsize := congrArg size hleading
    rw [Text.size_append] at hsize
    refine ⟨hcustom, (trimEnd text).takeWhile isBlank, ?_, ?_⟩
    · rw [String.toList_ofList, trimStart, hleading]
    · simp only [Span.mk.injEq, trimStart, and_true]
      omega
  · cases hcomponents : Component.readAll ⟨cur.offset, trimEnd text⟩ with
    | error fault => rw [hcomponents] at h; cases h
    | ok components => rw [hcomponents] at h; cases h

/-- The text of a custom property stands in the text that is read, with blanks around it. -/
theorem value_eq_raw {property : String} {cur : Cursor} {text : List Char} {raw : Raw}
    (h : readValue property cur text = .ok (.raw raw)) :
    ∃ leading kept trailing, text = leading ++ kept ++ trailing ∧ raw.text = String.ofList kept ∧
      raw.span = ⟨cur.offset + size leading, cur.offset + size leading + size kept⟩ := by
  obtain ⟨-, leading, htext, hspan⟩ := readValue_eq_raw h
  obtain ⟨trailing, htrailing, -⟩ := Text.trimEnd_append text
  refine ⟨leading, raw.text.toList, trailing, ?_, String.ofList_toList.symm, ?_⟩
  · rw [← htext, htrailing]
  · rw [hspan, htext, Text.size_append, Nat.add_assoc]

/-! ### Headings -/

/-- A text is read as a property and a colon, whatever follows it. -/
structure Heading (property : String) (front : List Char) : Prop where
  whole : Whole front
  two_le : 2 ≤ front.length
  read : ∀ offset value, ∃ named colon,
    readProperty ⟨offset, front ++ value⟩ = .ok (property, named) ∧
      named.skipTrivia = .ok colon ∧
      colon.char? ':' = some ⟨offset + size front, value⟩

/-- A name ends where trivia or a colon stand. -/
theorem spanName_gap {gap : List Char} (hgap : Trivia gap) (rest : List Char) :
    (spanName (gap ++ ':' :: rest)).1 = [] := by
  have hhead : ∀ c, (gap ++ ':' :: rest).head? = some c → c ≠ '\\' ∧ isNameChar c = false := by
    intro c hc
    cases hgap with
    | nil =>
      cases hc
      decide
    | cons first others =>
      cases first with
      | blank hblank =>
        cases hc
        simp only [Char.isWhitespace, Bool.or_eq_true, decide_eq_true_eq] at hblank
        rcases hblank with ((rfl | rfl) | rfl) | rfl <;> decide
      | comment hclose =>
        cases hc
        decide
  refine spanName_eq_nil_iff.mpr ⟨fun c tail heq => ?_, fun c hc => (hhead c hc).2⟩
  rw [heq] at hhead
  exact (hhead '\\' rfl).1 rfl

/-- A property that is read before trivia and a colon is read there in front of every value. -/
theorem readProperty_recut {property : String} {word gap : List Char}
    (h : readProperty statement = .ok (property, next)) (hreads : Reads statement word next)
    (hgap : Trivia gap) (offset : Nat) (value : List Char) :
    readProperty ⟨offset, word ++ (gap ++ ':' :: value)⟩ =
      .ok (property, ⟨offset + size word, gap ++ ':' :: value⟩) := by
  have hafter := spanName_gap hgap value
  unfold readProperty Cursor.fail at h ⊢
  dsimp only at h ⊢
  split at h
  · rename_i name after hname
    cases h
    cases hstar : statement.char? '*' with
    | none =>
      rw [hstar] at hname
      obtain ⟨hreadsName, hne⟩ := Cursor.reads_identifier? hname
      obtain rfl := hreads.unique hreadsName
      have hhead : (Cursor.mk offset (word ++ (gap ++ ':' :: value))).char? '*' = none := by
        rw [Cursor.char?_eq_none_iff] at hstar ⊢
        rw [hreads.rest_eq, List.head?_append_of_ne_nil _ hne] at hstar
        rwa [List.head?_append_of_ne_nil _ hne]
      rw [hhead]
      dsimp only
      rw [Cursor.identifier?_recut hname hafter offset]
    | some named =>
      rw [hstar] at hname
      have hreadsStar := Cursor.reads_char? hstar
      obtain ⟨hreadsName, -⟩ := Cursor.reads_identifier? hname
      obtain rfl := hreads.unique (hreadsStar.trans hreadsName)
      have hcons : (Cursor.mk offset (['*'] ++ name ++ (gap ++ ':' :: value))).rest =
          '*' :: (name ++ (gap ++ ':' :: value)) := rfl
      rw [Cursor.char?_of_cons hcons]
      dsimp only [Cursor.pass]
      rw [Cursor.identifier?_recut hname hafter (offset + size ['*'])]
      simp only [Text.size_append, Nat.add_assoc]
  · cases h

theorem whole_of_readProperty {property : String} {word : List Char}
    (h : readProperty statement = .ok (property, next)) (hreads : Reads statement word next) :
    Whole word ∧ word ≠ [] := by
  unfold readProperty Cursor.fail at h
  dsimp only at h
  split at h
  · rename_i name after hname
    cases h
    have hwhole := Cursor.whole_of_identifier? hname
    cases hstar : statement.char? '*' with
    | none =>
      rw [hstar] at hname
      obtain ⟨hreadsName, hne⟩ := Cursor.reads_identifier? hname
      obtain rfl := hreads.unique hreadsName
      exact ⟨hwhole, hne⟩
    | some named =>
      rw [hstar] at hname
      obtain ⟨hreadsName, -⟩ := Cursor.reads_identifier? hname
      obtain rfl := hreads.unique ((Cursor.reads_char? hstar).trans hreadsName)
      exact ⟨.cons (by decide) (by decide) (by decide) hwhole, by simp⟩
  · cases h

/-- A declaration that is read consists of a heading and a value. -/
theorem exists_heading {declaration : Declaration} (h : ofStatement? statement = .ok declaration) :
    ∃ front value, statement.rest = front ++ value ∧ Heading declaration.property front ∧
      readValue declaration.property ⟨statement.offset + size front, value⟩ (cutImportant value).1 =
        .ok declaration.value ∧
      declaration.important = (cutImportant value).2 ∧
      declaration.span =
        ⟨statement.offset, statement.offset + size (trimEnd statement.rest)⟩ := by
  obtain ⟨named, colon, cur, hproperty, hskip, hcolon, hvalue, himportant, hspan⟩ :=
    ofStatement?_eq_ok h
  obtain ⟨word, hword⟩ := reads_readProperty hproperty
  obtain ⟨gap, hgap, hreadsGap, -⟩ := Cursor.skipTrivia_eq_ok_iff.mp hskip
  obtain ⟨hwhole, hne⟩ := whole_of_readProperty hproperty hword
  have hreads := (hword.trans hreadsGap).trans hcolon
  have hcur : cur = ⟨statement.offset + size (word ++ gap ++ [':']), cur.rest⟩ := by
    rw [← hreads.offset_eq]
  refine ⟨word ++ gap ++ [':'], cur.rest, hreads.rest_eq, ⟨?_, ?_, fun offset value => ?_⟩, ?_,
    himportant, hspan⟩
  · exact (hwhole.append hgap.whole).append (.of_plain (by decide) (by decide) (by decide))
  · have := List.length_pos_iff.mpr hne
    simp only [List.length_append, List.length_cons, List.length_nil]
    omega
  · have hrecut := readProperty_recut hproperty hword hgap offset value
    have hskip' : (Cursor.mk (offset + size word) (gap ++ ':' :: value)).skipTrivia =
        .ok ⟨offset + size word + size gap, ':' :: value⟩ :=
      Cursor.skipTrivia_eq_ok_iff.mpr ⟨gap, hgap, ⟨rfl, rfl⟩, by decide, nofun⟩
    refine ⟨_, _, ?_, hskip', ?_⟩
    · simpa using hrecut
    · rw [Cursor.char?_of_cons rfl, Cursor.pass]
      simp only [Text.size_append, Nat.add_assoc]
  · rwa [hcur] at hvalue

/-- A word that is read in front of a colon is a heading with it. -/
theorem Heading.of_read {property : String} {word : List Char}
    (h : readProperty (.start (word ++ [':'])) = .ok (property, ⟨size word, [':']⟩)) :
    Heading property (word ++ [':']) := by
  have hreads : Reads (.start (word ++ [':'])) word ⟨size word, [':']⟩ :=
    ⟨rfl, (Nat.zero_add _).symm⟩
  obtain ⟨hwhole, hne⟩ := whole_of_readProperty h hreads
  refine ⟨hwhole.append (.of_plain (by decide) (by decide) (by decide)), ?_,
    fun offset value => ?_⟩
  · have := List.length_pos_iff.mpr hne
    rw [List.length_append, List.length_singleton]
    omega
  · have hcolon : AtToken (':' :: value) := atToken_of_ne (by decide) (by decide)
    have hrecut := readProperty_recut h hreads .nil offset value
    rw [List.nil_append] at hrecut
    refine ⟨_, ⟨offset + size word, ':' :: value⟩, ?_, Cursor.skipTrivia_of_atToken hcolon, ?_⟩
    · rw [List.append_assoc]
      exact hrecut
    · rw [Cursor.char?_of_cons rfl, Cursor.pass, Text.size_append, Nat.add_assoc]

/-- A heading with a value behind it is read as a declaration if the value can be read. -/
theorem ofStatement?_heading {property : String} {front : List Char}
    (hfront : Heading property front) (offset : Nat) (text : List Char) :
    ofStatement? ⟨offset, front ++ text⟩ =
      (readValue property ⟨offset + size front, text⟩ (cutImportant text).1).map fun value =>
        ⟨property, value, (cutImportant text).2,
          ⟨offset, offset + size (trimEnd (front ++ text))⟩⟩ := by
  obtain ⟨named, colon, hproperty, hskip, hcolon⟩ := hfront.read offset text
  simp only [ofStatement?, bind, Except.bind, pure, Except.pure, hproperty, hskip, hcolon]
  cases readValue property ⟨offset + size front, text⟩ (cutImportant text).1 <;> rfl

/-- A heading with a value that can be read is a declaration. -/
theorem ofStatement?_of_heading {property : String} {front text : List Char} {value : Value}
    {offset : Nat} (hfront : Heading property front)
    (hvalue : readValue property ⟨offset + size front, text⟩ (cutImportant text).1 = .ok value) :
    ofStatement? ⟨offset, front ++ text⟩ =
      .ok ⟨property, value, (cutImportant text).2,
        ⟨offset, offset + size (trimEnd (front ++ text))⟩⟩ := by
  rw [ofStatement?_heading hfront, hvalue]
  rfl

end Declaration

end WebFonts.Css
